/-! # Faults

    A fault is a broken precondition: a key that does not fit its storage,
    a statement placed twice, an access outside an arena.  Operations whose
    preconditions are tested return a `Checked` value.

    * `Fault` — the causes
    * `Fault.message?` — the wording of those causes that have one
    * `Checked` — a value, or the fault that prevented it -/

namespace DecafBackend

/-- Why an operation could not be carried out. -/
inductive Fault
  /-- An index does not fit the storage of its key kind. -/
  | keyTooLarge
  /-- The reserved key was used where a real key is needed. -/
  | reservedKey
  /-- A slot map has no value for the key written `key`. -/
  | absentEntry (key : String)
  /-- A statement was placed in a layout that already holds it. -/
  | statementPlacedTwice
  /-- A block was placed in a layout that already holds it. -/
  | blockPlacedTwice
  /-- A save was asked to store a record that produces no value. -/
  | notAValue
  /-- A record that is not a call was placed as a call statement. -/
  | notACall
  /-- An arena has no entry under a key. -/
  | outOfBounds
  /-- A count or an offset left the range of its machine integer. -/
  | overflow
  /-- A record owns itself, directly or through its operands. -/
  | cyclicRecord
  /-- A worklist was not empty when its step limit was used up. -/
  | unsettled
deriving DecidableEq

namespace Fault

/-- The wording of a fault, for the faults that have one. -/
def message? : Fault → Option String
  | keyTooLarge => some "index is not representable with key type"
  | reservedKey => some "cannot pack the reserved value"
  | absentEntry key => some s!"no value for key {key} in secondary map"
  | statementPlacedTwice => some "cannot insert same inst multiple times"
  | blockPlacedTwice => some "cannot insert block that is already inserted"
  | notAValue => some "can only save a value"
  | notACall | outOfBounds | overflow | cyclicRecord | unsettled => none

end Fault

/-- The result of an operation that tests its preconditions. -/
abbrev Checked (α : Type) := Except Fault α

end DecafBackend
