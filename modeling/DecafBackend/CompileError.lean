/-! # Compile errors

    What emission reports when a body breaks an invariant that it relies on.
    Each error names the method in which it was found. -/

namespace DecafBackend

/-- Why a method could not be emitted. -/
inductive CompileError
  /-- A statement needs more scratch registers than there are. -/
  | scratchExhausted (method : String)
  /-- A location has neither a register nor a stack slot. -/
  | missingAllocation (method loc : String)
  /-- A record stands where it cannot, or writes what cannot be written. -/
  | malformedInstruction (method reason : String)
  /-- A location has no place in the data sections. -/
  | unresolvedLocation (method loc : String)
deriving DecidableEq

/-- The wording of an error. -/
def CompileError.message : CompileError → String
  | scratchExhausted method => s!"ran out of scratch registers while emitting '{method}'"
  | missingAllocation method loc =>
    s!"location {loc} in '{method}' has no register and no stack slot"
  | malformedInstruction method reason => s!"malformed instruction in '{method}': {reason}"
  | unresolvedLocation method loc => s!"no storage for {loc} referenced by '{method}'"

end DecafBackend
