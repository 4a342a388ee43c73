import DecafBackend.Key
import DecafBackend.Text.Listing

/-! # Key sets

    A set of keys stored as one bit per index, together with the number of
    bits that are set.  Sets are compared by the keys they hold, so the bits
    beyond the largest key do not matter. -/

namespace DecafBackend

/-- A set of keys of one kind. -/
structure KeySet (kind : KeyKind) where
  /-- Whether each index is in the set. -/
  bits : Array Bool := #[]
  /-- The number of keys in the set. -/
  size : Nat := 0

namespace KeySet

variable {kind : KeyKind}

/-- The empty set, with room for the first `size` keys. -/
def withSize (size : Nat) : KeySet kind := ⟨Array.replicate size false, 0⟩

/-- Whether a key is in the set. -/
def contains (set : KeySet kind) (key : Key kind) : Bool := set.bits[key.index]?.getD false

/-- Bits that reach up to an index. -/
def grow (bits : Array Bool) (index : Nat) : Array Bool :=
  bits ++ Array.replicate (index + 1 - bits.size) false

/-- Adds a key. -/
def insert (set : KeySet kind) (key : Key kind) : KeySet kind :=
  ⟨(grow set.bits key.index).setIfInBounds key.index true,
    if set.contains key then set.size else set.size + 1⟩

/-- Takes a key away. -/
def remove (set : KeySet kind) (key : Key kind) : KeySet kind :=
  if set.contains key then ⟨set.bits.setIfInBounds key.index false, set.size - 1⟩ else set

/-- Takes every key away. -/
def clear (set : KeySet kind) : KeySet kind := ⟨set.bits.map fun _ => false, 0⟩

/-- The keys of the set in order. -/
def keys (set : KeySet kind) : List (Key kind) :=
  set.bits.toList.zipIdx.filterMap fun (bit, index) => if bit then some ⟨index⟩ else none

/-- The set of the first `size` keys that satisfy a test. -/
def filterKeys (size : Nat) (test : Key kind → Bool) : KeySet kind :=
  let bits := (Array.range size).map fun index => test ⟨index⟩
  ⟨bits, bits.toList.count true⟩

/-- The set of the keys of a list. -/
def ofList (keys : List (Key kind)) : KeySet kind := keys.foldl insert {}

/-- Adds the keys of another set, and tells whether any of them was new. -/
def union (set other : KeySet kind) : Bool × KeySet kind :=
  other.keys.foldl (fun (changed, set) key => (changed || !set.contains key, set.insert key))
    (false, set)

/-- Sets are equal when they hold the same keys. -/
instance : BEq (KeySet kind) := ⟨fun a b => a.size == b.size && a.keys == b.keys⟩

/-- A key set as printed. -/
def describe (set : KeySet kind) : String := Text.set (set.keys.map Key.describe)

end KeySet

end DecafBackend
