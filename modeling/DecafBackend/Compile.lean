import DecafBackend.Lowering
import DecafBackend.Machine.Emission
import DecafBackend.Options

/-! # Compiling

    A program is lowered, its methods go through the passes, and the result
    is emitted. -/

namespace DecafBackend

/-- A number of evaluations that no analysis of a real method needs. -/
def stepLimit : Nat := 1000000000000

/-- Runs the passes that the options ask for. -/
def runPipeline (steps : Nat) (options : CompileOptions) (module : Module) : Checked Module :=
  Prod.snd <$> Pass.runOnMethods steps options.passes module

/-- Lowers a program and runs the passes that the options ask for. -/
def optimizedModule (steps : Nat) (options : CompileOptions) (program : Source.Program) :
    Checked Module :=
  runPipeline steps options (Lowering.lowerProgram program)

/-- Compiles a program. -/
def compile (steps : Nat) (options : CompileOptions) (program : Source.Program) :
    Checked (Except CompileError Assembly) := do
  Emission.emitModule (← optimizedModule steps options program)

end DecafBackend
