import DecafBackend.Allocation.Registers
import DecafBackend.IR.Module
import DecafBackend.Optimize.CommonTerms
import DecafBackend.Optimize.Copies
import DecafBackend.Optimize.DeadSaves

/-! # Passes

    A pass changes one body and tells whether it found something to do.
    Passes are run in order, on one body or on every body of a module. -/

namespace DecafBackend

/-- A pass over bodies. -/
inductive Pass
  /-- Copy propagation. -/
  | copies
  /-- Elimination of common subexpressions. -/
  | commonTerms
  /-- Elimination of dead saves. -/
  | deadSaves
  /-- Register allocation out of a palette. -/
  | registers (palette : List Register)
deriving DecidableEq

namespace Pass

/-- The name of a pass. -/
def name : Pass → String
  | copies => "copy-prop"
  | commonTerms => "cse"
  | deadSaves => "dce"
  | registers _ => "regalloc"

/-- The optimization with a name. -/
def ofName? : String → Option Pass
  | "copy-prop" => some copies
  | "cse" => some commonTerms
  | "dce" => some deadSaves
  | _ => none

/-- Runs a pass, whose analysis has to settle within `steps` evaluations.
    Temporaries alone do not count as something to do; register allocation
    always does. -/
def run (steps : Nat) (pass : Pass) (body : Body) : Checked (Bool × Body) := do
  match pass with
  | copies =>
    let (count, body) ← propagateCopies steps body
    return (decide (0 < count), body)
  | commonTerms =>
    let (count, body) ← eliminateCommonTerms steps body
    return (decide (0 < count), body)
  | deadSaves =>
    let (count, body) ← eliminateDeadSaves body
    return (decide (0 < count), body)
  | registers palette =>
    let (_, body) ← allocateRegisters palette body
    return (true, body)

/-- Runs passes in order. -/
def runAll (steps : Nat) (passes : List Pass) (body : Body) : Checked (Bool × Body) :=
  passes.foldlM (fun (changed, body) pass => do
    let (this, body) ← pass.run steps body
    return (changed || this, body)) (false, body)

/-- Runs passes in order on every method of a module, and tells which
    methods changed. -/
def runOnMethods (steps : Nat) (passes : List Pass) (module : Module) :
    Checked (List Bool × Module) := do
  let results ← module.methods.toList.mapM (runAll steps passes)
  return (results.map Prod.fst, { module with methods := (results.map Prod.snd).toArray })

end Pass

end DecafBackend
