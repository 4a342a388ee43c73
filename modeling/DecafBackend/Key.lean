import DecafBackend.Fault
import Std.Data.ExtTreeMap
import Std.Data.ExtTreeSet

/-! # Keys

    A key is an index into some arena, tagged with the kind of thing it
    names.  Every kind has a storage width; the largest index of that width
    is reserved to stand for an absent key.

    * `wordLimit` — the machine words, which count and index everything
    * `KeyKind`, `Key` — kinds and keys
    * `Key.ofIndex` — the checked conversion from an index
    * the order of keys is the order of their indices, and it is lawful -/

namespace DecafBackend

/-- A comparison through an injective measure separates distinct values. -/
theorem lawfulEqCmp_compareOn {α β : Type} [Ord β] [Std.LawfulEqOrd β] {f : α → β}
    (inj : ∀ a b, f a = f b → a = b) : Std.LawfulEqCmp (compareOn f) where
  compare_self := Std.compare_self
  eq_of_compare h := inj _ _ (Std.LawfulEqOrd.compare_eq_iff_eq.mp h)

/-- The number of values of a machine word, which bounds every count. -/
def wordLimit : Nat := Nat.pow 2 64

/-- A kind of key: its name in printed text and the width of its storage. -/
structure KeyKind where
  /-- The word written in front of an index. -/
  name : String
  /-- The number of bits that store an index. -/
  bits : Nat
deriving DecidableEq

namespace KeyKind

/-- The number of indices that fit the storage. -/
def limit (kind : KeyKind) : Nat := Nat.pow 2 kind.bits

/-- The index that stands for an absent key. -/
def reserved (kind : KeyKind) : Nat := kind.limit - 1

end KeyKind

/-- A key of some kind. -/
structure Key (kind : KeyKind) where
  /-- The position in the arena that handed the key out. -/
  index : Nat
deriving DecidableEq

namespace Key

variable {kind : KeyKind}

/-- Makes a key from an index that fits the storage of its kind. -/
def ofIndex (kind : KeyKind) (index : Nat) : Checked (Key kind) :=
  if index < kind.limit then .ok ⟨index⟩ else .error .keyTooLarge

/-- Whether a key is the one that stands for an absent key. -/
def isReserved (key : Key kind) : Bool := key.index == kind.reserved

/-- A key as printed: its kind and, in brackets, its index. -/
def describe (key : Key kind) : String := s!"{kind.name}({key.index})"

instance : Ord (Key kind) := ⟨compareOn Key.index⟩

instance : Std.TransOrd (Key kind) :=
  inferInstanceAs (Std.TransCmp (compareOn fun key : Key kind => key.index))

instance : Std.LawfulEqOrd (Key kind) :=
  lawfulEqCmp_compareOn fun ⟨_⟩ ⟨_⟩ h => congrArg Key.mk h

instance : LT (Key kind) := ⟨fun a b => a.index < b.index⟩

instance : LE (Key kind) := ⟨fun a b => a.index ≤ b.index⟩

instance (a b : Key kind) : Decidable (a < b) := inferInstanceAs (Decidable (a.index < b.index))

instance (a b : Key kind) : Decidable (a ≤ b) := inferInstanceAs (Decidable (a.index ≤ b.index))

/-- The smaller of two keys. -/
def least (a b : Key kind) : Key kind := if a ≤ b then a else b

end Key

end DecafBackend
