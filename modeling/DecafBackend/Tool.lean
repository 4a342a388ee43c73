import DecafBackend.CommandLine
import DecafBackend.Compile
import DecafBackend.IR.Printer
import DecafBackend.Json.Parser
import DecafBackend.Source.Reader

/-! # The compiler as a tool

    The tool reads one program from a file and writes assembly, or the
    printed bodies, to a file or to its output.

    * `outputFor` — what it writes for the text of an input
    * `run` — the whole of it, over any way to reach files -/

namespace DecafBackend.Tool

/-- Why the tool gave up. -/
inductive Failure
  /-- There is not exactly one input. -/
  | oneInput
  /-- The input cannot be read. -/
  | unreadable (path reason : String)
  /-- The input is not a program. -/
  | invalid (path : String)
  /-- The program cannot be emitted. -/
  | compile (error : CompileError)
  /-- The output cannot be written. -/
  | unwritable (path reason : String)
  /-- A precondition of the compiler itself was broken. -/
  | fault (fault : Fault)
deriving DecidableEq

/-- The wording of a failure. -/
def Failure.message : Failure → String
  | oneInput => "expected exactly one input file"
  | unreadable path reason => s!"unable to read '{path}': {reason}"
  | invalid path => s!"'{path}' is not a valid program"
  | compile error => error.message
  | unwritable path reason => s!"unable to write '{path}': {reason}"
  | fault cause => cause.message?.getD "compilation stopped unexpectedly"

/-- The one input of an invocation. -/
def inputOf (invocation : CommandLine.Invocation) : Except Failure String :=
  match invocation.inputs with
  | [path] => .ok path
  | _ => .error .oneInput

/-- Reads a program from text. -/
def readProgram (path text : String) : Except Failure Source.Program :=
  match (Json.parse? text).bind (Source.Program.ofJson? true) with
  | some program => .ok program
  | none => .error (.invalid path)

/-- Turns faults into failures. -/
def checked {α : Type} : Checked α → Except Failure α
  | .ok value => .ok value
  | .error cause => .error (.fault cause)

/-- What the tool writes for the text of an input. -/
def outputFor (invocation : CommandLine.Invocation) (path text : String) :
    Except Failure String := do
  let program ← readProgram path text
  let module ← checked (optimizedModule stepLimit invocation.options program)
  if invocation.emitBodies then checked module.render
  else
    match ← checked (Emission.emitModule module) with
    | .error error => throw (.compile error)
    | .ok assembly => checked assembly.render

/-- A way to reach files.  Where that fails, the reason is given. -/
structure Files (m : Type → Type) where
  /-- The contents of a file. -/
  read : String → m (Except String String)
  /-- Replaces the contents of a file. -/
  write : String → String → m (Except String Unit)

/-- Carries out an invocation: what is to be printed, or why it failed. -/
def run {m : Type → Type} [Monad m] (files : Files m) (invocation : CommandLine.Invocation) :
    m (Except Failure String) := do
  match inputOf invocation with
  | .error failure => return .error failure
  | .ok path =>
    match ← files.read path with
    | .error reason => return .error (.unreadable path reason)
    | .ok text =>
      match outputFor invocation path text, invocation.output with
      | .error failure, _ => return .error failure
      | .ok result, none => return .ok result
      | .ok result, some file =>
        match ← files.write file result with
        | .error reason => return .error (.unwritable file reason)
        | .ok () => return .ok ""

end DecafBackend.Tool
