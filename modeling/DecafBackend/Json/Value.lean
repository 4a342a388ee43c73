/-! # JSON values

    Values as they are written: the members of an object keep their order
    and may repeat a name, and an integer literal is kept apart from a
    number with a fraction or an exponent.  What is well-formed but has no
    value can still be passed over, as the member of an object that nobody
    asks for.

    * `Json` — the values
    * `Json.lastWins` — the reading under which a repeated member replaces
      the earlier ones
    * `Json.record?`, `Json.variant?` — how records and tagged alternatives
      are found in a value -/

namespace DecafBackend

/-- A JSON value. -/
inductive Json
  /-- The literal `null`. -/
  | null
  /-- A truth value. -/
  | bool (value : Bool)
  /-- An integer literal that a machine word, signed or not, can hold. -/
  | int (value : Int)
  /-- Any other number, as it is written. -/
  | real (literal : String)
  /-- A string. -/
  | string (value : String)
  /-- An array. -/
  | array (items : List Json)
  /-- An object. -/
  | object (members : List (String × Json))
  /-- Something well-formed that has no value: a string with half of a
      surrogate pair in it, an object with such a name, or an array or an
      object that is nested too deep. -/
  | unreadable

namespace Json

mutual

/-- How deep values are nested; a value without parts has depth one. -/
def depth : Json → Nat
  | array items => listDepth items + 1
  | object members => memberDepth members + 1
  | _ => 1

/-- The largest depth in a list. -/
def listDepth : List Json → Nat
  | [] => 0
  | item :: rest => Nat.max item.depth (listDepth rest)

/-- The largest depth among members. -/
def memberDepth : List (String × Json) → Nat
  | [] => 0
  | (_, value) :: rest => Nat.max value.depth (memberDepth rest)

end

/-- The last of the members that have each name, in the order in which they
    stand. -/
def keepLast : List (String × Json) → List (String × Json)
  | [] => []
  | (name, value) :: rest =>
    if rest.any (·.1 == name) then keepLast rest else (name, value) :: keepLast rest

mutual

/-- The value with every object's repeated members replaced by the last, and
    the members in the order of their names. -/
def lastWins : Json → Json
  | array items => array (listLastWins items)
  | object members => object ((keepLast (memberLastWins members)).mergeSort (·.1 ≤ ·.1))
  | value => value

/-- Each value of a list with repeated members replaced. -/
def listLastWins : List Json → List Json
  | [] => []
  | item :: rest => item.lastWins :: listLastWins rest

/-- Each member's value with repeated members replaced. -/
def memberLastWins : List (String × Json) → List (String × Json)
  | [] => []
  | (name, value) :: rest => (name, value.lastWins) :: memberLastWins rest

end

/-! ## Taking values apart -/

/-- The truth value that a value is. -/
def bool? : Json → Option Bool
  | bool value => some value
  | _ => none

/-- The string that a value is. -/
def string? : Json → Option String
  | string value => some value
  | _ => none

/-- The items of an array. -/
def array? : Json → Option (List Json)
  | array items => some items
  | _ => none

/-- The integer that a value is, if it is at least `low` and at most `high`. -/
def intIn? (low high : Int) : Json → Option Int
  | int value => if low ≤ value ∧ value ≤ high then some value else none
  | _ => none

/-- The signed 64-bit integer that a value is. -/
def int64? (value : Json) : Option Int64 :=
  (value.intIn? (-9223372036854775808) 9223372036854775807).map Int64.ofInt

/-- The signed 32-bit integer that a value is. -/
def int32? (value : Json) : Option Int32 :=
  (value.intIn? (-2147483648) 2147483647).map Int32.ofInt

/-- The natural number below `2 ^ bits` that a value is. -/
def nat? (bits : Nat) (value : Json) : Option Nat :=
  (value.intIn? 0 (Nat.pow 2 bits - 1 : Nat)).map Int.toNat

/-- A list of values that can each be read. -/
def list? {α : Type} (read : Json → Option α) (value : Json) : Option (List α) := do
  (← value.array?).mapM read

/-- A value that may be absent: `null`, or what `read` accepts. -/
def nullable? {α : Type} (read : Json → Option α) : Json → Option (Option α)
  | null => some none
  | value => (read value).map some

/-- The value of the one member with a name; `none` if two members have it. -/
def member? (members : List (String × Json)) (name : String) : Option (Option Json) :=
  match members.filter (·.1 == name) with
  | [] => some none
  | [(_, value)] => some (some value)
  | _ => none

/-- The fields of a record, which is an object with any further members; no
    field may be given twice. -/
def members? (names : List String) : Json → Option (List (Option Json))
  | object members => names.mapM (member? members)
  | _ => none

/-- The fields of a record, which is an object or an array of its leading
    fields in order. -/
def record? (names : List String) : Json → Option (List (Option Json))
  | array items =>
    if items.length ≤ names.length then
      some (items.map some ++ List.replicate (names.length - items.length) none)
    else none
  | value => value.members? names

/-- A tagged alternative: a tag alone, or an object of one member whose name
    is the tag and whose value is the payload. -/
def variant? : Json → Option (String × Option Json)
  | string tag => some (tag, none)
  | object [(tag, payload)] => some (tag, some payload)
  | _ => none

/-- The tag of an alternative without payload, which may have `null` there. -/
def tag? (value : Json) : Option String :=
  match value.variant? with
  | some (tag, none) => some tag
  | some (tag, some null) => some tag
  | _ => none

end Json

end DecafBackend
