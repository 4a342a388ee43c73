import DecafBackend.IR.Builder
import DecafBackend.IR.Module
import DecafBackend.Source.Tree

/-! # Lowering

    Lowering turns a method of the tree into a body.  Every intermediate
    result is saved into a fresh variable, so the operands of arithmetic are
    plain loads; conditions, loops and short-circuit operators become labels,
    jumps and branches.

    * `Scope` — what names and loop exits mean at a point of the tree
    * `lowerExpr` — the value of an expression, computed into a target
      location or into one of its own
    * `lowerBlock`, `lowerStmt` — blocks and statements
    * `lowerMethod`, `lowerProgram` — methods and programs -/

namespace DecafBackend.Lowering

open Source

/-- The code of a process that leaves a method without the value it was
    declared to return. -/
def missingReturnCode : Int32 := -2

/-- What lowering has produced so far. -/
structure State where
  /-- The symbols in use. -/
  symbols : SymbolPool
  /-- The body under construction. -/
  builder : Builder
  /-- The number of the next intermediate result. -/
  nextResult : Nat := 0

/-- A step of lowering. -/
abbrev Lower := StateM State

/-- Where the innermost loop goes. -/
structure LoopExits where
  /-- The start of the next iteration. -/
  next : Label
  /-- The end of the loop. -/
  done : Label

/-- The variables in scope, innermost first, and the innermost loop. -/
structure Scope where
  /-- The location of each name in scope; the first entry of a name counts. -/
  vars : List (String × Loc) := []
  /-- The exits of the innermost loop. -/
  loop : Option LoopExits := none

/-! ## Steps -/

/-- Interns a text. -/
def intern (text : String) : Lower Symbol := fun state =>
  let (symbol, symbols) := state.symbols.intern text
  (symbol, { state with symbols })

/-- Runs a step of the builder. -/
def build {α : Type} (step : Builder → α × Builder) : Lower α := fun state =>
  let (result, builder) := step state.builder
  (result, { state with builder })

/-- Runs a step of the builder for its effect. -/
def emit {α : Type} (step : Builder → α × Builder) : Lower Unit := fun state =>
  ((), { state with builder := (step state.builder).2 })

/-- A fresh variable for an intermediate result. -/
def freshResult : Lower Loc := do
  let number := (← get).nextResult
  let name ← intern s!".t{number}"
  modify fun state => { state with nextResult := number + 1 }
  build (·.localVar name)

/-- The location that a name means: the innermost variable of that name, or
    else the field. -/
def resolve (scope : Scope) (name : String) : Lower Loc :=
  match scope.vars.lookup name with
  | some loc => pure loc
  | none => do
    let symbol ← intern name
    build (·.global symbol)

/-- Delivers a value that is in a location already: it stays there, or is
    copied to the target. -/
def deliver (src : Loc) : Option Loc → Lower Loc
  | none => pure src
  | some dest => do
    emit (·.copy src dest)
    return dest

/-- The target, or a fresh variable if there is none. -/
def targetOrFresh : Option Loc → Lower Loc
  | none => freshResult
  | some dest => pure dest

/-! ## Expressions -/

mutual

/-- Computes an expression into `target`, or into a location of its choice
    if there is no target, and gives the location. -/
def lowerExpr (scope : Scope) : Expr → Option Loc → Lower Loc
  | .int value, target => do deliver (← build (·.constant value)) target
  | .bool value, target => do
    deliver (← build (·.constant (if value then 1 else 0))) target
  | .var name, target => do deliver (← resolve scope name) target
  | .binary (.strict op) lhs rhs, target => do
    let dest ← targetOrFresh target
    let left ← lowerExpr scope lhs none
    -- a call on the right could write a variable read on the left
    let left ← if rhs.hasCall then do
        let early ← freshResult
        emit (·.copy left early)
        pure early
      else pure left
    let right ← lowerExpr scope rhs none
    let value ← build (·.binary op left right)
    emit (·.save value dest)
    return dest
  | .binary .and lhs rhs, target => do
    let dest ← freshResult
    let done ← build (·.newLabel)
    let _ ← lowerExpr scope lhs (some dest)
    emit (·.branchIfZero dest done)
    let _ ← lowerExpr scope rhs (some dest)
    emit (·.label done)
    deliver dest target
  | .binary .or lhs rhs, target => do
    let dest ← freshResult
    let done ← build (·.newLabel)
    let _ ← lowerExpr scope lhs (some dest)
    let inverse ← freshResult
    let value ← build (·.unary .not dest)
    emit (·.save value inverse)
    emit (·.branchIfZero inverse done)
    let _ ← lowerExpr scope rhs (some dest)
    emit (·.label done)
    deliver dest target
  | .unary op operand, target => do
    let dest ← targetOrFresh target
    let operand ← lowerExpr scope operand none
    let value ← build (·.unary op operand)
    emit (·.save value dest)
    return dest
  | .call call, target => do
    let dest ← targetOrFresh target
    let value ← lowerCall scope call
    emit (·.save value dest)
    return dest

/-- Evaluates the arguments of a call and makes the call. -/
def lowerCall (scope : Scope) : Call → Lower Inst
  | .mk name args isCallout => do
    let locs ← lowerArgs scope args
    let target ← intern name
    build (·.call target locs isCallout)

/-- Evaluates arguments from left to right.  A variable is copied when a
    later argument calls something that could write it. -/
def lowerArgs (scope : Scope) : List Arg → Lower (List Loc)
  | [] => pure []
  | .text value :: rest => do
    let symbol ← intern value
    let loc ← build (·.literal symbol)
    return loc :: (← lowerArgs scope rest)
  | .expr (.var name) :: rest => do
    let loc ← if rest.any Arg.hasCall then do
        let early ← freshResult
        deliver (← resolve scope name) (some early)
      else resolve scope name
    return loc :: (← lowerArgs scope rest)
  | .expr value :: rest => do
    let loc ← lowerExpr scope value none
    return loc :: (← lowerArgs scope rest)

end

/-! ## Statements -/

/-- Declares the variables of a block, each set to zero. -/
def declare (zero : Loc) : List String → List (String × Loc) → Lower (List (String × Loc))
  | [], vars => pure vars
  | name :: rest, vars => do
    let symbol ← intern name
    let loc ← build (·.localVar symbol)
    emit (·.copy zero loc)
    declare zero rest ((name, loc) :: vars)

mutual

/-- Lowers a statement. -/
def lowerStmt (scope : Scope) : Stmt → Lower Unit
  | .assign target .assign value => do
    let dest ← resolve scope target
    let _ ← lowerExpr scope value (some dest)
  | .assign target .addAssign value => do
    let dest ← resolve scope target
    let right ← lowerExpr scope value none
    let sum ← build (·.binary .add dest right)
    emit (·.save sum dest)
  | .assign target .subAssign value => do
    let dest ← resolve scope target
    let right ← lowerExpr scope value none
    let difference ← build (·.binary .sub dest right)
    emit (·.save difference dest)
  | .call call => do
    let value ← lowerCall scope call
    emit fun builder => ((), builder.callStmt value)
  | .cond cond thenBlock none => do
    let test ← lowerExpr scope cond none
    let done ← build (·.newLabel)
    emit (·.branchIfZero test done)
    lowerBlock scope thenBlock
    emit (·.label done)
  | .cond cond thenBlock (some elseBlock) => do
    let test ← lowerExpr scope cond none
    let otherwise ← build (·.newLabel)
    emit (·.branchIfZero test otherwise)
    lowerBlock scope thenBlock
    let done ← build (·.newLabel)
    emit (·.jump done)
    emit (·.label otherwise)
    lowerBlock scope elseBlock
    emit (·.label done)
  | .whileLoop cond body => do
    let top ← build (·.newLabel)
    let done ← build (·.newLabel)
    emit (·.label top)
    let test ← lowerExpr scope cond none
    emit (·.branchIfZero test done)
    lowerBlock { scope with loop := some ⟨top, done⟩ } body
    emit (·.jump top)
    emit (·.label done)
  | .forLoop var start bound body => do
    let counter ← resolve scope var
    let limit ← freshResult
    let _ ← lowerExpr scope start (some counter)
    let _ ← lowerExpr scope bound (some limit)
    let top ← build (·.newLabel)
    let next ← build (·.newLabel)
    let done ← build (·.newLabel)
    emit (·.label top)
    let test ← freshResult
    let less ← build (·.binary .lt counter limit)
    emit (·.save less test)
    emit (·.branchIfZero test done)
    lowerBlock { scope with loop := some ⟨next, done⟩ } body
    emit (·.label next)
    let one ← build (·.constant 1)
    let sum ← build (·.binary .add counter one)
    emit (·.save sum counter)
    emit (·.jump top)
    emit (·.label done)
  | .ret none => emit (·.ret none)
  | .ret (some value) => do
    let loc ← lowerExpr scope value none
    emit (·.ret (some loc))
  | .breakLoop =>
    match scope.loop with
    | some exits => emit (·.jump exits.done)
    | none => pure ()
  | .continueLoop =>
    match scope.loop with
    | some exits => emit (·.jump exits.next)
    | none => pure ()
  | .block block => lowerBlock scope block

/-- Lowers a block: its variables, then its statements in their scope. -/
def lowerBlock (scope : Scope) : Source.Block → Lower Unit
  | .mk locals stmts => do
    let zero ← build (·.constant 0)
    let vars ← declare zero locals scope.vars
    lowerStmts { scope with vars } stmts

/-- Lowers statements one after another. -/
def lowerStmts (scope : Scope) : List Stmt → Lower Unit
  | [] => pure ()
  | stmt :: rest => do
    lowerStmt scope stmt
    lowerStmts scope rest

end

/-! ## Methods and programs -/

/-- Declares the parameters of a method. -/
def declareParams : List String → List (String × Loc) → Lower (List (String × Loc))
  | [], vars => pure vars
  | name :: rest, vars => do
    let symbol ← intern name
    let loc ← build (·.param symbol)
    declareParams rest ((name, loc) :: vars)

/-- Lowers everything after the name of a method.  Control that would leave
    the end of the method returns, or ends the process if a value was due. -/
def lowerRest (method : Method) : Lower Unit := do
  let vars ← declareParams method.params []
  lowerBlock { vars } method.body
  if !(← get).builder.isTerminated then
    if method.returnsValue then emit (·.exit missingReturnCode) else emit (·.ret none)

/-- Lowers a method, interning the names it uses. -/
def lowerMethod (symbols : SymbolPool) (method : Method) : Body × SymbolPool :=
  let (name, symbols) := symbols.intern method.name
  let ((), state) := lowerRest method { symbols, builder := { body := { name } } }
  (state.builder.finish, state.symbols)

/-- Lowers a program. -/
def lowerProgram (program : Program) : Module :=
  let module := program.fields.foldl (fun (module : Module) field =>
    let (name, module) := module.intern field
    module.addGlobal name) {}
  program.methods.foldl (fun module method =>
    let (body, symbols) := lowerMethod module.symbols method
    { module with symbols }.addMethod body) module

end DecafBackend.Lowering
