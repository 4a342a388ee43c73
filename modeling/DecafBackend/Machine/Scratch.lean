import DecafBackend.Machine.Register

/-! # Scratch registers

    Two registers hold values that live inside one statement.  An
    instruction gives its inputs back before it takes its output, so that
    the output can reuse the register of an input. -/

namespace DecafBackend

/-- Which scratch registers are free. -/
structure ScratchPool where
  /-- Whether `r10` is free. -/
  firstFree : Bool := true
  /-- Whether `r11` is free. -/
  secondFree : Bool := true
deriving DecidableEq

namespace ScratchPool

/-- Takes the first free register, if there is one. -/
def take (pool : ScratchPool) : Option (Register × ScratchPool) :=
  if pool.firstFree then some (.r10, { pool with firstFree := false })
  else if pool.secondFree then some (.r11, { pool with secondFree := false })
  else none

/-- Gives a register back; other registers do not matter. -/
def release (pool : ScratchPool) : Register → ScratchPool
  | .r10 => { pool with firstFree := true }
  | .r11 => { pool with secondFree := true }
  | _ => pool

/-- Whether a register is a scratch register. -/
def owns (register : Register) : Bool := Register.scratch.contains register

/-- The number of free registers. -/
def available (pool : ScratchPool) : Nat := pool.firstFree.toNat + pool.secondFree.toNat

end ScratchPool

end DecafBackend
