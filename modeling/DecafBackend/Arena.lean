import DecafBackend.Key
import DecafBackend.Text.Listing

/-! # Arenas

    An arena hands out keys in order, starting from zero, and never takes a
    value back.  A key that the arena has not handed out names nothing. -/

namespace DecafBackend

/-- The values that the keys of one kind name. -/
structure Arena (kind : KeyKind) (α : Type) where
  /-- The values, each at the index of its key. -/
  slots : Array α := #[]
deriving DecidableEq

namespace Arena

variable {kind : KeyKind} {α : Type}

/-- The arena of the values of a list. -/
def ofList (values : List α) : Arena kind α := ⟨values.toArray⟩

/-- The number of values. -/
def size (arena : Arena kind α) : Nat := arena.slots.size

/-- Whether the arena has handed a key out. -/
def contains (arena : Arena kind α) (key : Key kind) : Bool := key.index < arena.size

/-- The value that a key names, if it names one. -/
def get? (arena : Arena kind α) (key : Key kind) : Option α := arena.slots[key.index]?

/-- The value that a key must name. -/
def get (arena : Arena kind α) (key : Key kind) : Checked α :=
  match arena.get? key with
  | some value => .ok value
  | none => .error .outOfBounds

/-- Adds a value, if a machine word still counts the values, and hands out its
    key. -/
def insert (arena : Arena kind α) (value : α) : Checked (Key kind × Arena kind α) :=
  if arena.size + 1 < wordLimit then do
    let key ← Key.ofIndex kind arena.size
    return (key, ⟨arena.slots.push value⟩)
  else .error .overflow

/-- Adds values one after another. -/
def insertAll (arena : Arena kind α) (values : List α) : Checked (Arena kind α) :=
  values.foldlM (fun arena value => Prod.snd <$> arena.insert value) arena

/-- The key that the next value gets. -/
def nextKey (arena : Arena kind α) : Checked (Key kind) := Key.ofIndex kind arena.size

/-- Replaces the value that a key names and gives back the old one; a key
    that names nothing changes nothing. -/
def set (arena : Arena kind α) (key : Key kind) (value : α) : Option α × Arena kind α :=
  (arena.get? key, ⟨arena.slots.setIfInBounds key.index value⟩)

/-- Replaces the value that a key must name. -/
def replace (arena : Arena kind α) (key : Key kind) (value : α) : Checked (Arena kind α) := do
  let _ ← arena.get key
  return (arena.set key value).2

/-- The keys in the order in which they were handed out. -/
def keys (arena : Arena kind α) : Checked (List (Key kind)) :=
  (List.range arena.size).mapM (Key.ofIndex kind)

/-- The values in key order. -/
def values (arena : Arena kind α) : List α := arena.slots.toList

/-- The keys with their values, in key order. -/
def entries (arena : Arena kind α) : Checked (List (Key kind × α)) := do
  return (← arena.keys).zip arena.values

/-- An arena as printed: a map from keys to values. -/
def describe (arena : Arena kind α) (value : α → String) : Checked String := do
  return Text.map ((← arena.entries).map fun (key, v) => (key.describe, value v))

end Arena

end DecafBackend
