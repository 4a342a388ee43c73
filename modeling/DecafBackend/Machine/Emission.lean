import DecafBackend.CompileError
import DecafBackend.IR.Module
import DecafBackend.Machine.Frame
import DecafBackend.Machine.Scratch
import DecafBackend.Machine.Session

/-! # Emission

    Emission turns a body into machine code, statement by statement.  Each
    access goes to the register that it is bound to, or else to the slot,
    data word, immediate or text label of its location.

    * `Emit` — steps that may fail with a compile error and that add to the
      code and to the session; what was added before an error stays
    * `value` — a value, computed into a register
    * `statement` — a statement
    * `emitMethod`, `emitModule` — methods and modules -/

namespace DecafBackend.Emission

/-- The routine that ends the process. -/
def exitRoutine : String := "exit"

/-- What is fixed while a method is emitted. -/
structure Context where
  /-- The body. -/
  body : Body
  /-- The symbols of the program. -/
  symbols : SymbolPool
  /-- The stack frame. -/
  frame : Frame
  /-- The name of the method. -/
  name : String

namespace Context

/-- The registers to be preserved for the caller, in order. -/
def calleeSaved (context : Context) : List Register := context.body.bindings.calleeSaved.toList

end Context

/-- What grows while a method is emitted. -/
structure State where
  /-- What the program collects. -/
  session : Session
  /-- The free scratch registers. -/
  scratch : ScratchPool := {}
  /-- The code so far. -/
  code : Array Instruction := #[]

/-- A step of emission. -/
abbrev Emit := ReaderT Context (ExceptT CompileError (StateT State Checked))

/-! ## Steps -/

/-- Adds an instruction. -/
def push (instruction : Instruction) : Emit Unit :=
  modify fun state => { state with code := state.code.push instruction }

/-- Changes the session. -/
def inSession {α : Type} (step : Session → α × Session) : Emit α := do
  let (result, session) := step (← get).session
  modify fun state => { state with session }
  return result

/-- Fails because of a record that stands where it cannot. -/
def malformed {α : Type} (reason : String) : Emit α := do
  throw (.malformedInstruction (← read).name reason)

/-- Takes a scratch register. -/
def takeScratch : Emit Register := do
  match (← get).scratch.take with
  | some (register, scratch) =>
    modify fun state => { state with scratch }
    return register
  | none => throw (.scratchExhausted (← read).name)

/-- Gives a register back. -/
def release (register : Register) : Emit Unit :=
  modify fun state => { state with scratch := state.scratch.release register }

/-- Copies between registers. -/
def move (dest src : Register) : Emit Unit := push (.mov (.reg dest) (.reg src))

/-- Sets a register to zero. -/
def clear (register : Register) : Emit Unit := push (.alu .xor (.reg register) (.reg register))

/-- The name of a label in the code. -/
def labelName (label : Label) : String := s!".L{label.index}"

/-! ## Accesses -/

/-- Where an access finds its location: everything except literal texts,
    which are addresses. -/
def storage (access : Access) : Emit Operand := do
  let context ← read
  match context.body.bindings.get? access with
  | some register => return .reg register
  | none =>
    match ← context.body.location access.loc with
    | .localVar _ | .temp =>
      match context.frame.slot? access.loc with
      | some offset => return .frame offset
      | none => throw (.missingAllocation context.name access.loc.describe)
    | .global name =>
      let name ← context.symbols.text name
      match (← get).session.global? name with
      | some label => return .data label
      | none => throw (.unresolvedLocation context.name s!"global '{name}'")
    | .constant value => return .imm value
    | .literal _ => malformed "string literal used as storage"

/-- The value of a location as a record reads it, in a register. -/
def readAccess (access : Access) : Emit Register := do
  let context ← read
  match context.body.bindings.get? access with
  | some register => return register
  | none =>
    match ← context.body.location access.loc with
    | .literal text =>
      let text ← context.symbols.text text
      let label ← inSession (·.internText text)
      let out ← takeScratch
      push (.lea out label)
      return out
    | _ =>
      let src ← storage access
      let out ← takeScratch
      push (.mov (.reg out) src)
      return out

/-- Writes a register into the destination of a save, and gives it back. -/
def store (save : Inst) (dest : Loc) (value : Register) : Emit Unit := do
  let location ← (← read).body.location dest
  if !location.isWritable then malformed s!"save into read-only {location.describe}"
  else
    let operand ← storage ⟨save, dest⟩
    release value
    if operand ≠ .reg value then push (.mov operand (.reg value))

/-! ## Arithmetic -/

/-- The condition that a comparison tests. -/
def conditionOf : BinaryOp → Option Condition
  | .eq => some .e
  | .ne => some .ne
  | .lt => some .l
  | .le => some .le
  | .gt => some .g
  | .ge => some .ge
  | _ => none

/-- A comparison of two registers that have been given back. -/
def compareInto (condition : Condition) (lhs rhs : Register) : Emit Register := do
  push (.alu .cmp (.reg lhs) (.reg rhs))
  let out ← takeScratch
  push (.set condition out)
  return out

/-- A division of two registers that have been given back; the quotient
    comes in `rax` and the remainder in `rdx`. -/
def divideInto (result : Register) (lhs rhs : Register) : Emit Register := do
  move .rax lhs
  push .cqo
  push (.idiv rhs)
  let out ← takeScratch
  move out result
  return out

/-- An operation on two registers that have been given back.  If the output
    is in the place of the right operand, the operands are exchanged, and a
    difference becomes the sum with the opposite. -/
def combineInto (op : AluOp) (lhs rhs : Register) : Emit Register := do
  let out ← takeScratch
  if out = rhs ∧ out ≠ lhs then
    if op = .sub then
      push (.neg out)
      push (.alu .add (.reg out) (.reg lhs))
    else push (.alu op (.reg out) (.reg lhs))
  else
    if out ≠ lhs then move out lhs
    push (.alu op (.reg out) (.reg rhs))
  return out

/-- An operator applied to two registers that have been given back. -/
def binaryInto (op : BinaryOp) (lhs rhs : Register) : Emit Register :=
  match conditionOf op with
  | some condition => compareInto condition lhs rhs
  | none =>
    match op with
    | .div => divideInto .rax lhs rhs
    | .mod => divideInto .rdx lhs rhs
    | .add => combineInto .add lhs rhs
    | .sub => combineInto .sub lhs rhs
    | _ => combineInto .imul lhs rhs

/-- An operator applied to a register that has been given back. -/
def unaryInto (op : UnaryOp) (operand : Register) : Emit Register := do
  let out ← takeScratch
  match op with
  | .neg =>
    if out ≠ operand then move out operand
    push (.neg out)
  | .not =>
    push (.alu .cmp (.reg operand) (.imm 0))
    push (.set .e out)
  return out

/-! ## Calls -/

/-- Pushes an argument of a call. -/
def pushArg (call : Inst) (arg : Loc) : Emit Unit := do
  let register ← readAccess ⟨call, arg⟩
  release register
  push (.push (.reg register))

/-- A call.  The registers to preserve are pushed first, and one more word if
    the stack would not be aligned.  Then come the arguments that stay on
    the stack, the last one first, and the others, which are popped into
    their registers so that none is overwritten before it is read. -/
def emitCall (inst : Inst) (target : Symbol) (args : List Loc) (isExternal : Bool)
    (saved : List Register) : Emit Unit := do
  let target ← (← read).symbols.text target
  let count := Register.arguments.length
  let inRegisters := args.take count
  let onStack := args.drop count
  let isPadded := (saved.length + onStack.length) % 2 == 1
  saved.forM fun register => push (.push (.reg register))
  if isPadded then push (.alu .sub (.reg .rsp) (.imm 8))
  onStack.reverse.forM (pushArg inst)
  inRegisters.forM (pushArg inst)
  (Register.arguments.take inRegisters.length).reverse.forM fun register => push (.pop register)
  if isExternal then
    inSession fun session => ((), session.addExtern target)
    clear .rax
  push (.call target)
  let cleanup ← fit64 ((onStack.length + isPadded.toNat) * 8)
  if 0 < cleanup then push (.alu .add (.reg .rsp) (.imm (Int64.ofNat cleanup)))
  saved.reverse.forM fun register => push (.pop register)

/-! ## Values and statements -/

/-- Computes a value into a register, which is a scratch register unless the
    value is a read that is bound to another one.  No chain of owners may be
    longer than `depth`. -/
def value : Nat → Inst → Emit Register
  | 0, _ => throwThe Fault .cyclicRecord
  | depth + 1, inst => do
    match ← (← read).body.record inst with
    | .load src => readAccess ⟨inst, src⟩
    | .param index =>
      match ← (← read).frame.param? index with
      | none => malformed s!"read of undeclared parameter {index}"
      | some offset =>
        let out ← takeScratch
        push (.mov (.reg out) (.frame offset))
        return out
    | .binary op lhs rhs =>
      let lhs ← value depth lhs
      let rhs ← value depth rhs
      release lhs
      release rhs
      binaryInto op lhs rhs
    | .unary op operand =>
      let operand ← value depth operand
      release operand
      unaryInto op operand
    | .call target args isExternal saved =>
      emitCall inst target args isExternal saved
      let out ← takeScratch
      move out .rax
      return out
    | other => malformed s!"{other.describe} doesn't produce a value"

/-- Computes a value of the method being emitted. -/
def valueOf (inst : Inst) : Emit Register := do
  value ((← read).body.records.size + 1) inst

/-- The code at the start of a method: a frame, the arguments that come in
    registers, and the registers to be preserved for the caller. -/
def prologue : Emit Unit := do
  let context ← read
  let size ← context.frame.allocationSize context.calleeSaved.length
  push (.push (.reg .rbp))
  move .rbp .rsp
  if 0 < size then push (.alu .sub (.reg .rsp) (.imm (Int64.ofInt size)))
  (context.frame.params.zip Register.arguments).forM fun (offset, register) =>
    push (.mov (.frame offset) (.reg register))
  context.calleeSaved.forM fun register => push (.push (.reg register))

/-- The code that leaves a method. -/
def epilogue : Emit Unit := do
  (← read).calleeSaved.reverse.forM fun register => push (.pop register)
  move .rsp .rbp
  push (.pop .rbp)
  push .ret

/-- Emits a statement. -/
def statement (stmt : Inst) : Emit Unit := do
  match ← (← read).body.record stmt with
  | .save value dest =>
    let register ← valueOf value
    store stmt dest register
  | .call target args isExternal saved => emitCall stmt target args isExternal saved
  | .use _ => return ()
  | .label place => push (.label (labelName place))
  | .jump target => push (.jmp (labelName target))
  | .branch cond target =>
    let register ← valueOf cond
    release register
    push (.alu .cmp (.reg register) (.imm 0))
    push (.jcc .e (labelName target))
  | .ret (some value) =>
    let register ← valueOf value
    release register
    move .rax register
    epilogue
  | .ret none =>
    clear .rax
    epilogue
  | .exit code =>
    inSession fun session => ((), session.addExtern exitRoutine)
    clear .rax
    push (.mov (.reg .rdi) (.imm (Int64.ofInt code.toInt)))
    push (.call exitRoutine)
  | other => malformed s!"value record {other.describe} used as a statement"

/-- Emits statements; all scratch registers are free between them. -/
def statements (stmts : List Inst) : Emit Unit :=
  stmts.forM fun stmt => do
    statement stmt
    modify fun state => { state with scratch := {} }

/-- Whether control can leave the end of a body, which is a return without a
    value. -/
def fallsOff (body : Body) : Checked Bool :=
  match body.lastStmt? with
  | none => return true
  | some last => return !(← body.record last).isTerminator

/-- Emits the whole of a method. -/
def wholeMethod : Emit Unit := do
  let context ← read
  prologue
  statements context.body.stmts
  if ← fallsOff context.body then
    clear .rax
    epilogue

/-- Emits a method, adding what it needs to the session. -/
def emitMethod (body : Body) (symbols : SymbolPool) (session : Session) :
    Checked (Except CompileError Function × Session) := do
  let name ← symbols.text body.name
  let frame ← Frame.compute body
  let (result, state) ← wholeMethod { body, symbols, frame, name } { session }
  return (result.map fun () => { name, code := state.code.toList }, state.session)

/-- Emits methods one after another, up to the first error. -/
def emitMethods (symbols : SymbolPool) :
    List Body → Session → Checked (Except CompileError (List Function × Session))
  | [], session => return .ok ([], session)
  | body :: rest, session => do
    match ← emitMethod body symbols session with
    | (.error error, _) => return .error error
    | (.ok function, session) =>
      match ← emitMethods symbols rest session with
      | .error error => return .error error
      | .ok (functions, session) => return .ok (function :: functions, session)

/-- The session in which the fields of a module are declared. -/
def declareGlobals (module : Module) : Checked Session :=
  module.globals.foldlM (fun session name => do
    return (session.declareGlobal (← module.symbols.text name)).2) {}

/-- Emits a module. -/
def emitModule (module : Module) : Checked (Except CompileError Assembly) := do
  let session ← declareGlobals module
  match ← emitMethods module.symbols module.methods.toList session with
  | .error error => return .error error
  | .ok (functions, session) => return .ok (session.finish functions)

end DecafBackend.Emission
