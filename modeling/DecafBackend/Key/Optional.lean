import DecafBackend.Key
import DecafBackend.Text.Listing

/-! # Optional keys

    An optional key takes no more room than a key: the reserved key of its
    kind stands for its absence. -/

namespace DecafBackend

/-- A key, or its absence stored as the reserved key. -/
structure OptionalKey (kind : KeyKind) where
  /-- The stored key. -/
  raw : Key kind
deriving DecidableEq

namespace OptionalKey

variable {kind : KeyKind}

/-- The absent key. -/
def none : OptionalKey kind := ⟨⟨kind.reserved⟩⟩

instance : Inhabited (OptionalKey kind) := ⟨none⟩

/-- A present key, which must not be the reserved one. -/
def some (key : Key kind) : Checked (OptionalKey kind) :=
  if key.isReserved then .error .reservedKey else .ok ⟨key⟩

/-- Whether the key is absent. -/
def isNone (key : OptionalKey kind) : Bool := key.raw.isReserved

/-- The key as an option. -/
def toOption (key : OptionalKey kind) : Option (Key kind) :=
  if key.isNone then Option.none else Option.some key.raw

/-- Stores an option, which must not hold the reserved key. -/
def ofOption : Option (Key kind) → Checked (OptionalKey kind)
  | Option.none => .ok none
  | Option.some key => some key

/-- Puts a key in and gives back what was there. -/
def replace (old : OptionalKey kind) (key : Key kind) :
    Checked (Option (Key kind) × OptionalKey kind) := do
  let new ← some key
  return (old.toOption, new)

/-- Takes the key out and leaves nothing in its place. -/
def take (old : OptionalKey kind) : Option (Key kind) × OptionalKey kind :=
  (old.toOption, none)

/-- An optional key as printed. -/
def describe (key : OptionalKey kind) : String := Text.optional (key.toOption.map Key.describe)

/-! ## What is stored -/

theorem toOption_none : (none : OptionalKey kind).toOption = Option.none := by
  have hreserved : (none : OptionalKey kind).isNone = true := beq_self_eq_true _
  rw [toOption, hreserved]
  rfl

theorem toOption_mk {key : Key kind} (h : key.isReserved = false) :
    (⟨key⟩ : OptionalKey kind).toOption = Option.some key := by
  have hpresent : (⟨key⟩ : OptionalKey kind).isNone = false := h
  rw [toOption, hpresent]
  rfl

theorem some_eq {key : Key kind} (h : key.isReserved = false) : some key = .ok ⟨key⟩ := by
  rw [some, h]
  rfl

theorem replace_eq {key : Key kind} (h : key.isReserved = false) (old : OptionalKey kind) :
    old.replace key = .ok (old.toOption, ⟨key⟩) := by
  rw [replace, some_eq h]
  rfl

/-- Keys that can be stored come back as they were. -/
theorem ofOption_ok {key : Option (Key kind)} (h : ∀ found, key = Option.some found →
    found.isReserved = false) : ∃ stored, ofOption key = .ok stored ∧ stored.toOption = key := by
  cases key with
  | none => exact ⟨none, rfl, toOption_none⟩
  | some found => exact ⟨⟨found⟩, some_eq (h found rfl), toOption_mk (h found rfl)⟩

end OptionalKey

end DecafBackend
