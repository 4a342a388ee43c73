import DecafBackend.IR.Body
import DecafBackend.Machine.Assembly

/-! # Stack frames

    A method's words on the stack, addressed from the frame pointer.  The
    arguments that come in registers get the first slots; after them, every
    variable or temporary with an access that no register serves gets a slot,
    in the order of first access.  Further arguments lie above the frame
    pointer, behind the saved one and the return address. -/

namespace DecafBackend

/-- The size of a slot. -/
def slotSize : Nat := 8

/-- The stack frame of a method. -/
structure Frame where
  /-- The offsets of the arguments that come in registers. -/
  params : List Int := []
  /-- The offset of each location that has a slot. -/
  slots : Std.ExtTreeMap Loc Int := ∅
  /-- The size of all slots together. -/
  size : Nat := 0

namespace Frame

/-- Hands out the next slot. -/
def nextSlot (frame : Frame) : Checked (Int × Frame) := do
  let size := frame.size + slotSize
  let _ ← fit32 size
  return (-size, { frame with size })

/-- Hands out slots for arguments. -/
def addParams : Nat → Frame → Checked Frame
  | 0, frame => return frame
  | count + 1, frame => do
    let (offset, frame) ← frame.nextSlot
    addParams count { frame with params := frame.params ++ [offset] }

/-- Makes sure that an access that no register serves has a slot. -/
def noteAccess (body : Body) (frame : Frame) (access : Access) : Checked Frame := do
  let isTracked ← body.isTracked access.loc
  if isTracked && (body.bindings.get? access).isNone && !frame.slots.contains access.loc then
    let (offset, frame) ← frame.nextSlot
    return { frame with slots := frame.slots.insert access.loc offset }
  else return frame

/-- The accesses of a statement as the frame sees them: the write first. -/
def accessesOf (body : Body) (stmt : Inst) : Checked (List Access) := do
  let write := (← body.record stmt).dest?.map (Access.mk stmt)
  return write.toList ++ (← body.reads stmt)

/-- The frame of a body. -/
def compute (body : Body) : Checked Frame := do
  let frame ← addParams (Nat.min body.params.length Register.arguments.length) {}
  body.stmts.foldlM (fun frame stmt => do
    (← accessesOf body stmt).foldlM (noteAccess body) frame) frame

/-- The offset of a location's slot, if it has one. -/
def slot? (frame : Frame) (loc : Loc) : Option Int := frame.slots[loc]?

/-- The offset of an incoming argument.  Arguments beyond the registers are
    counted in 32 bits. -/
def param? (frame : Frame) (index : Nat) : Checked (Option Int) :=
  match frame.params[index]? with
  | some offset => .ok (some offset)
  | none =>
    if Register.arguments.length ≤ index then do
      let position := Int.bmod (index - Register.arguments.length : Nat) 4294967296
      let above ← fit32 (position * slotSize)
      return some (← fit32 (2 * slotSize + above))
    else .ok none

/-- What to subtract from the stack pointer so that it is a multiple of 16
    again after `pushes` more words. -/
def allocationSize (frame : Frame) (pushes : Nat) : Checked Int := do
  let pushed ← fit32 (Int.bmod pushes 4294967296 * slotSize)
  let used ← fit32 (frame.size + pushed)
  let rounded ← fit32 (used + 15)
  fit32 (rounded / 16 * 16 - pushed)

end Frame

end DecafBackend
