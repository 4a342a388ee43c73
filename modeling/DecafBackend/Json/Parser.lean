import DecafBackend.Json.Value

/-! # Reading JSON text

    A value is read from the front of the text, with blanks around it; a
    text is accepted when nothing else follows.  A number literal without
    fraction and exponent that fits a machine word is an integer; all others
    are kept as they are written.  A zero with a minus sign is no integer
    either.

    Arrays and objects that are open at a point are kept on a stack, so the
    text may nest them as deep as it likes; those below `nestingLimit` have
    no value, but do not make the text invalid.

    * `stringRest`, `unsigned?`, `scalar?` — values without parts
    * `Opened`, `finish` — arrays and objects that are not complete yet
    * `value?`, `after?` — what may come before and after a value
    * `parse?` — whole texts -/

namespace DecafBackend.Json

/-- How deep an array or object may be nested to have a value. -/
def nestingLimit : Nat := 127

/-- The characters that may stand between tokens. -/
def isBlank (c : Char) : Bool := c == ' ' || c == '\n' || c == '\t' || c == '\r'

/-- The text after leading blanks. -/
def skipBlanks (cs : List Char) : List Char := cs.dropWhile isBlank

/-- The value of a hexadecimal digit. -/
def hexValue? (c : Char) : Option Nat :=
  if '0' ≤ c ∧ c ≤ '9' then some (c.toNat - 48)
  else if 'a' ≤ c ∧ c ≤ 'f' then some (c.toNat - 87)
  else if 'A' ≤ c ∧ c ≤ 'F' then some (c.toNat - 55)
  else none

/-- The value of four hexadecimal digits. -/
def hexUnit? (a b c d : Char) : Option Nat := do
  return (((← hexValue? a) * 16 + (← hexValue? b)) * 16 + (← hexValue? c)) * 16 + (← hexValue? d)

/-- The character that a short escape stands for. -/
def shortEscape? : Char → Option Char
  | '"' => some '"'
  | '\\' => some '\\'
  | '/' => some '/'
  | 'b' => some (Char.ofNat 8)
  | 'f' => some (Char.ofNat 12)
  | 'n' => some '\n'
  | 'r' => some '\r'
  | 't' => some '\t'
  | _ => none

/-- Reads the rest of a string after its opening quote.  A character beyond
    the basic plane is escaped as a leading and a trailing surrogate; a
    string in which either stands alone is well-formed, but no text. -/
def stringRest : List Char → Option (List Char) → Option (Option String × List Char)
  | '"' :: rest, seen => some (seen.map fun cs => String.ofList cs.reverse, rest)
  | '\\' :: 'u' :: a :: b :: c :: d :: rest, seen => do
    let unit ← hexUnit? a b c d
    if 0xD800 ≤ unit ∧ unit < 0xDC00 then
      match rest with
      | '\\' :: 'u' :: e :: f :: g :: h :: rest =>
        let trail ← hexUnit? e f g h
        if 0xDC00 ≤ trail ∧ trail < 0xE000 then
          let code := 0x10000 + (unit - 0xD800) * 0x400 + (trail - 0xDC00)
          stringRest rest (seen.map (Char.ofNat code :: ·))
        else stringRest rest none
      | rest => stringRest rest none
    else if 0xDC00 ≤ unit ∧ unit < 0xE000 then stringRest rest none
    else stringRest rest (seen.map (Char.ofNat unit :: ·))
  | '\\' :: c :: rest, seen => do
    let escaped ← shortEscape? c
    stringRest rest (seen.map (escaped :: ·))
  | c :: rest, seen =>
    if c.toNat < 32 ∨ c = '\\' then none else stringRest rest (seen.map (c :: ·))
  | [], _ => none

/-- Reads a string after its opening quote. -/
def text? (cs : List Char) : Option (Option String × List Char) := stringRest cs (some [])

/-- The number that a row of decimal digits writes. -/
def decimalValue (digits : List Char) : Nat :=
  digits.foldl (fun n c => n * 10 + (c.toNat - 48)) 0

/-- The fraction of a number: a point and at least one digit, or nothing. -/
def fraction? : List Char → Option (List Char × List Char)
  | '.' :: rest =>
    match rest.takeWhile Char.isDigit with
    | [] => none
    | digits => some (digits, rest.dropWhile Char.isDigit)
  | rest => some ([], rest)

/-- The exponent of a number as it is written, or nothing. -/
def exponent? : List Char → Option (List Char × List Char)
  | c :: rest =>
    if c = 'e' ∨ c = 'E' then
      let (sign, tail) := match rest with
        | '+' :: tail => (['+'], tail)
        | '-' :: tail => (['-'], tail)
        | tail => ([], tail)
      match tail.takeWhile Char.isDigit with
      | [] => none
      | digits => some (c :: sign ++ digits, tail.dropWhile Char.isDigit)
    else some ([], c :: rest)
  | [] => some ([], [])

/-- Reads a number without its sign. -/
def unsigned? (isNegative : Bool) (cs : List Char) : Option (Json × List Char) := do
  let whole := cs.takeWhile Char.isDigit
  let rest := cs.dropWhile Char.isDigit
  guard (whole = ['0'] ∨ (whole ≠ [] ∧ whole.head? ≠ some '0'))
  let (digits, rest) ← fraction? rest
  let (power, rest) ← exponent? rest
  let size := decimalValue whole
  let value : Int := if isNegative then -size else size
  let isWord := -9223372036854775808 ≤ value ∧ value ≤ 18446744073709551615
  if digits = [] ∧ power = [] ∧ ¬(isNegative ∧ size = 0) ∧ isWord then
    return (int value, rest)
  else
    let point := if digits = [] then [] else '.' :: digits
    let sign := if isNegative then ['-'] else []
    return (real (String.ofList (sign ++ whole ++ point ++ power)), rest)

/-- Drops an expected word from the front of the text. -/
def expect? (word : String) (cs : List Char) : Option (List Char) :=
  if word.toList.isPrefixOf cs then some (cs.drop word.length) else none

/-- Reads a value without parts. -/
def scalar? : List Char → Option (Json × List Char)
  | 'n' :: rest => (expect? "ull" rest).map (null, ·)
  | 't' :: rest => (expect? "rue" rest).map (bool true, ·)
  | 'f' :: rest => (expect? "alse" rest).map (bool false, ·)
  | '"' :: rest => (text? rest).map fun (text, rest) => ((text.map string).getD unreadable, rest)
  | '-' :: rest => unsigned? true rest
  | rest => unsigned? false rest

/-! ## Arrays and objects -/

/-- The names and values of an object, a name that is no text being absent. -/
abbrev Members := List (Option String × Json)

/-- An array or object that was opened and not closed yet, with what it has
    so far, the last one first. -/
inductive Opened
  /-- An array, waiting for an item. -/
  | array (items : List Json)
  /-- An object, waiting for the value of a name. -/
  | object (members : Members) (name : Option String)

/-- An array or object that is complete, inside of those still open. -/
def finish (outer : List Opened) (value : Json) : Json :=
  if (outer.drop (nestingLimit - 1)).isEmpty then value else unreadable

/-- The object with some members, the last one first. -/
def ofMembers (members : Members) : Json :=
  let named? : Option String × Json → Option (String × Json)
    | (name, value) => name.map (·, value)
  ((members.reverse.mapM named?).map object).getD unreadable

mutual

/-- Reads a value and what follows it, inside of what is open. -/
def value? : Nat → List Opened → List Char → Option (Json × List Char)
  | 0, _, _ => none
  | steps + 1, outer, cs =>
    match skipBlanks cs with
    | '[' :: rest =>
      match skipBlanks rest with
      | ']' :: rest => after? steps outer (finish outer (.array [])) rest
      | rest => value? steps (.array [] :: outer) rest
    | '{' :: rest =>
      match skipBlanks rest with
      | '}' :: rest => after? steps outer (finish outer (.object [])) rest
      | rest => name? steps outer [] rest
    | rest => do
      let (value, rest) ← scalar? rest
      after? steps outer value rest

/-- Reads the name of a member and what follows it, in an object that has
    some members already. -/
def name? : Nat → List Opened → Members → List Char → Option (Json × List Char)
  | 0, _, _, _ => none
  | steps + 1, outer, members, cs =>
    match skipBlanks cs with
    | '"' :: rest => do
      let (name, rest) ← text? rest
      match skipBlanks rest with
      | ':' :: rest => value? steps (.object members name :: outer) rest
      | _ => none
    | _ => none

/-- Takes a value that was read into what is open, and reads on. -/
def after? : Nat → List Opened → Json → List Char → Option (Json × List Char)
  | _, [], value, cs => some (value, cs)
  | 0, _ :: _, _, _ => none
  | steps + 1, .array items :: outer, value, cs =>
    match skipBlanks cs with
    | ',' :: rest => value? steps (.array (value :: items) :: outer) rest
    | ']' :: rest => after? steps outer (finish outer (.array (value :: items).reverse)) rest
    | _ => none
  | steps + 1, .object members name :: outer, value, cs =>
    match skipBlanks cs with
    | ',' :: rest => name? steps outer ((name, value) :: members) rest
    | '}' :: rest => after? steps outer (finish outer (ofMembers ((name, value) :: members))) rest
    | _ => none

end

/-- Reads a text that holds one value and nothing else.  Every step takes at
    least one character, which bounds the steps. -/
def parse? (text : String) : Option Json := do
  let cs := text.toList
  let (value, rest) ← value? (cs.length + 1) [] cs
  guard (skipBlanks rest = [])
  return value

end DecafBackend.Json
