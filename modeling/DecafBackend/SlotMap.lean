import DecafBackend.Key
import DecafBackend.Text.Listing

/-! # Slot maps

    A slot map attaches data to some of the keys of an arena.  It has one
    slot for every index up to the largest key it ever held, and it counts
    its filled slots.  Two slot maps are equal when their slots and counts
    are, so empty slots at the end tell maps apart. -/

namespace DecafBackend

/-- Data for some of the keys of one kind. -/
structure SlotMap (kind : KeyKind) (α : Type) where
  /-- What each index holds. -/
  slots : Array (Option α) := #[]
  /-- The number of filled slots. -/
  count : Nat := 0
deriving DecidableEq

namespace SlotMap

variable {kind : KeyKind} {α : Type}

/-- A map with empty slots for `size` keys. -/
def withSize (size : Nat) : SlotMap kind α := ⟨Array.replicate size none, 0⟩

/-- The map that gives every one of the first `size` keys a value. -/
def tabulate (size : Nat) (f : Key kind → α) : SlotMap kind α :=
  ⟨(Array.range size).map fun index => some (f ⟨index⟩), size⟩

/-- The value of a key, if it has one. -/
def get? (map : SlotMap kind α) (key : Key kind) : Option α := map.slots[key.index]?.join

/-- Whether a key has a value. -/
def contains (map : SlotMap kind α) (key : Key kind) : Bool := (map.get? key).isSome

/-- The value that a key must have. -/
def get (map : SlotMap kind α) (key : Key kind) : Checked α :=
  match map.get? key with
  | some value => .ok value
  | none => .error (.absentEntry key.describe)

/-- Slots that reach up to an index. -/
def grow (slots : Array (Option α)) (index : Nat) : Array (Option α) :=
  slots ++ Array.replicate (index + 1 - slots.size) none

/-- Gives a key a value and returns the value it had. -/
def insert (map : SlotMap kind α) (key : Key kind) (value : α) :
    Checked (Option α × SlotMap kind α) :=
  let slots := (grow map.slots key.index).setIfInBounds key.index (some value)
  match map.get? key with
  | some old => .ok (some old, ⟨slots, map.count⟩)
  | none =>
    if map.count + 1 < wordLimit then .ok (none, ⟨slots, map.count + 1⟩) else .error .overflow

/-- Replaces the value that a key must have. -/
def modify (map : SlotMap kind α) (key : Key kind) (f : α → Checked α) :
    Checked (SlotMap kind α) := do
  let value ← map.get key
  let new ← f value
  return { map with slots := map.slots.setIfInBounds key.index (some new) }

/-- Takes the value of a key away and returns it. -/
def remove (map : SlotMap kind α) (key : Key kind) : Checked (Option α × SlotMap kind α) :=
  match map.get? key with
  | none => .ok (none, map)
  | some old =>
    if map.count = 0 then .error .overflow
    else .ok (some old, ⟨map.slots.setIfInBounds key.index none, map.count - 1⟩)

/-- The value of a key, which gets `default` first if it has none. -/
def getOrInsert (map : SlotMap kind α) (key : Key kind) (default : α) :
    Checked (α × SlotMap kind α) :=
  match map.get? key with
  | some value => .ok (value, map)
  | none => do
    let (_, map) ← map.insert key default
    return (default, map)

/-- Empties every slot. -/
def clear (map : SlotMap kind α) : SlotMap kind α := ⟨map.slots.map fun _ => none, 0⟩

/-- The keys that have a value, with it, in key order. -/
def entries (map : SlotMap kind α) : List (Key kind × α) :=
  map.slots.toList.zipIdx.filterMap fun (slot, index) => slot.map fun value => (⟨index⟩, value)

/-- The keys that have a value, in order. -/
def keys (map : SlotMap kind α) : List (Key kind) := map.entries.map Prod.fst

/-- The values in key order. -/
def values (map : SlotMap kind α) : List α := map.entries.map Prod.snd

/-- Changes every value. -/
def mapValues (map : SlotMap kind α) (f : Key kind → α → Checked α) :
    Checked (SlotMap kind α) := do
  let slots ← map.slots.toList.zipIdx.mapM fun (slot, index) =>
    slot.mapM (f ⟨index⟩)
  return { map with slots := slots.toArray }

/-- A slot map as printed. -/
def describe (map : SlotMap kind α) (value : α → String) : String :=
  Text.map (map.entries.map fun (key, v) => (key.describe, value v))

end SlotMap

end DecafBackend
