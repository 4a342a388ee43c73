import DecafBackend.Source.Tree
import DecafBackend.Proofs.Behaviour

/-! # Execution of syntax trees

    What the programs of the tree mean.  Operands and arguments are evaluated
    from left to right, and a variable is read where it stands.  A short-circuit
    operator gives the left value when that decides, and the right one
    otherwise.  The variables of a block are zero whenever it is entered and
    shadow outer names; any other name is a field.

    Expressions always come to an end, since calls are answered at once.  Loops
    need not: they are run with a bound on the number of rounds of each loop,
    and a run that needs more rounds is unfinished.

    * `Memory` — variables, fields and calls
    * `evalExpr`, `evalArgs` — expressions
    * `execStmt`, `execBlock` — statements
    * `Method.behaviour` — methods -/

namespace DecafBackend.Source

/-- What is fixed while a method runs. -/
structure World where
  /-- What the operators compute. -/
  arithmetic : Arithmetic := .standard
  /-- The addresses of literal texts. -/
  literal : String → Word
  /-- What answers calls. -/
  environment : Environment

/-- What changes while a method runs. -/
structure Memory where
  /-- The variables in scope with their values, innermost first. -/
  vars : List (String × Word)
  /-- The fields. -/
  globals : Globals
  /-- The calls so far, the last one first. -/
  calls : List CallEvent

/-- Gives the first variable of a name a value. -/
def assignVar (name : String) (word : Word) : List (String × Word) → List (String × Word)
  | [] => []
  | (other, old) :: rest =>
    if name == other then (other, word) :: rest else (other, old) :: assignVar name word rest

namespace Memory

/-- The value of a name. -/
def get (memory : Memory) (name : String) : Word :=
  match memory.vars.lookup name with
  | some word => word
  | none => memory.globals name

/-- Gives a name a value. -/
def set (memory : Memory) (name : String) (word : Word) : Memory :=
  if (memory.vars.lookup name).isSome then { memory with vars := assignVar name word memory.vars }
  else
    { memory with
      globals := fun other => if other = name then word else memory.globals other }

/-- Brings variables into scope, each zero. -/
def declare (memory : Memory) (locals : List String) : Memory :=
  { memory with vars := locals.foldl (fun vars name => (name, 0) :: vars) memory.vars }

/-- Takes the innermost variables out of scope. -/
def drop (memory : Memory) (count : Nat) : Memory :=
  { memory with vars := memory.vars.drop count }

/-- The end of a run. -/
def stop (memory : Memory) (outcome : Outcome) : Ending :=
  ⟨outcome, memory.globals, memory.calls⟩

/-- Makes a call. -/
def callOut (memory : Memory) (world : World) (target : String) (args : List Word) :
    Except Ending (Word × Memory) :=
  let calls := ⟨target, args, memory.globals⟩ :: memory.calls
  let reply := world.environment calls
  match reply.result with
  | .ok value => .ok (value, { memory with globals := reply.globals, calls })
  | .error abort => .error ⟨.aborted abort, reply.globals, calls⟩

/-- Applies an operator. -/
def operate (memory : Memory) (world : World) (op : BinaryOp) (a b : Word) :
    Except Ending Word :=
  match world.arithmetic.apply op a b with
  | some word => .ok word
  | none => .error (memory.stop (.aborted .trap))

end Memory

/-! ## Expressions -/

section

variable (world : World)

mutual

/-- The value of an expression. -/
def evalExpr : Expr → Memory → Except Ending (Word × Memory)
  | .int value, memory => .ok (value, memory)
  | .bool value, memory => .ok (truth value, memory)
  | .var name, memory => .ok (memory.get name, memory)
  | .call call, memory => evalCall call memory
  | .binary (.strict op) lhs rhs, memory => do
    let (left, memory) ← evalExpr lhs memory
    let (right, memory) ← evalExpr rhs memory
    return (← memory.operate world op left right, memory)
  | .binary .and lhs rhs, memory => do
    let (left, memory) ← evalExpr lhs memory
    if left = 0 then return (left, memory) else evalExpr rhs memory
  | .binary .or lhs rhs, memory => do
    let (left, memory) ← evalExpr lhs memory
    if left = 0 then evalExpr rhs memory else return (left, memory)
  | .unary op operand, memory => do
    let (word, memory) ← evalExpr operand memory
    return (op.apply word, memory)

/-- The result of a call. -/
def evalCall : Call → Memory → Except Ending (Word × Memory)
  | .mk name args _, memory => do
    let (words, memory) ← evalArgs args memory
    memory.callOut world name words

/-- The values of arguments. -/
def evalArgs : List Arg → Memory → Except Ending (List Word × Memory)
  | [], memory => .ok ([], memory)
  | .text value :: rest, memory => do
    let (words, memory) ← evalArgs rest memory
    return (world.literal value :: words, memory)
  | .expr value :: rest, memory => do
    let (word, memory) ← evalExpr value memory
    let (words, memory) ← evalArgs rest memory
    return (word :: words, memory)

end

/-! ## Statements -/

/-- How a statement is left. -/
inductive Completion
  /-- For the statement after it. -/
  | next (memory : Memory)
  /-- For the statement after the innermost loop. -/
  | leftLoop (memory : Memory)
  /-- For the next round of the innermost loop. -/
  | nextRound (memory : Memory)
  /-- Not at all, since the run has ended. -/
  | ended (ending : Ending)
  /-- Not within the bound on rounds; these calls were made. -/
  | unfinished (calls : List CallEvent)

/-- Takes variables out of scope, wherever control goes. -/
def Completion.drop (count : Nat) : Completion → Completion
  | next memory => next (memory.drop count)
  | leftLoop memory => leftLoop (memory.drop count)
  | nextRound memory => nextRound (memory.drop count)
  | ended ending => ended ending
  | unfinished calls => unfinished calls

/-- Repeats a body, and a step after it, while a test is not zero. -/
def loop (test : Memory → Except Ending (Word × Memory)) (body : Memory → Completion)
    (after : Memory → Except Ending Memory) : Nat → Memory → Completion
  | 0, memory => .unfinished memory.calls
  | rounds + 1, memory =>
    match test memory with
    | .error ending => .ended ending
    | .ok (word, memory) =>
      if word = 0 then .next memory
      else
        match body memory with
        | .next memory | .nextRound memory =>
          match after memory with
          | .error ending => .ended ending
          | .ok memory => loop test body after rounds memory
        | .leftLoop memory => .next memory
        | .ended ending => .ended ending
        | .unfinished calls => .unfinished calls

/-- The new value that an assignment gives. -/
def assigned (memory : Memory) (target : String) (word : Word) : AssignOp → Except Ending Word
  | .assign => .ok word
  | .addAssign => memory.operate world .add (memory.get target) word
  | .subAssign => memory.operate world .sub (memory.get target) word

mutual

/-- Runs a statement, with at most `rounds` rounds of each loop.  Outside of
    loops, statements that leave a round do nothing. -/
def execStmt (rounds : Nat) (inLoop : Bool) : Stmt → Memory → Completion
  | .assign target op value, memory =>
    match evalExpr world value memory with
    | .error ending => .ended ending
    | .ok (word, memory) =>
      match assigned world memory target word op with
      | .error ending => .ended ending
      | .ok word => .next (memory.set target word)
  | .call call, memory =>
    match evalCall world call memory with
    | .error ending => .ended ending
    | .ok (_, memory) => .next memory
  | .cond cond thenBlock none, memory =>
    match evalExpr world cond memory with
    | .error ending => .ended ending
    | .ok (word, memory) =>
      if word = 0 then .next memory else execBlock rounds inLoop thenBlock memory
  | .cond cond thenBlock (some elseBlock), memory =>
    match evalExpr world cond memory with
    | .error ending => .ended ending
    | .ok (word, memory) =>
      if word = 0 then execBlock rounds inLoop elseBlock memory
      else execBlock rounds inLoop thenBlock memory
  | .whileLoop cond body, memory =>
    loop (evalExpr world cond) (execBlock rounds true body) .ok rounds memory
  | .forLoop var start bound body, memory =>
    match evalExpr world start memory with
    | .error ending => .ended ending
    | .ok (first, memory) =>
      match evalExpr world bound (memory.set var first) with
      | .error ending => .ended ending
      | .ok (limit, memory) =>
        loop (fun memory => (·, memory) <$> memory.operate world .lt (memory.get var) limit)
          (execBlock rounds true body)
          (fun memory => memory.set var <$> memory.operate world .add (memory.get var) 1)
          rounds memory
  | .ret none, memory => .ended (memory.stop (.returned none))
  | .ret (some value), memory =>
    match evalExpr world value memory with
    | .error ending => .ended ending
    | .ok (word, memory) => .ended (memory.stop (.returned (some word)))
  | .breakLoop, memory => if inLoop then .leftLoop memory else .next memory
  | .continueLoop, memory => if inLoop then .nextRound memory else .next memory
  | .block block, memory => execBlock rounds inLoop block memory

/-- Runs a block. -/
def execBlock (rounds : Nat) (inLoop : Bool) : Block → Memory → Completion
  | .mk locals stmts, memory =>
    (execStmts rounds inLoop stmts (memory.declare locals)).drop locals.length

/-- Runs statements one after another. -/
def execStmts (rounds : Nat) (inLoop : Bool) : List Stmt → Memory → Completion
  | [], memory => .next memory
  | stmt :: rest, memory =>
    match execStmt rounds inLoop stmt memory with
    | .next memory => execStmts rounds inLoop rest memory
    | other => other

end

attribute [simp] execStmt execBlock execStmts

/-! ## Methods -/

/-- Brings parameters into scope with the incoming arguments from a position
    on. -/
def bindParams (args : Nat → Word) : Nat → List String → List (String × Word) →
    List (String × Word)
  | _, [], vars => vars
  | position, name :: rest, vars =>
    bindParams args (position + 1) rest ((name, args position) :: vars)

/-- The code of a process that falls off the end of a method that was to
    return a value. -/
def missingReturn : Int32 := -2

/-- The end of a method whose statements are over. -/
def Method.atEnd (method : Method) : Outcome :=
  if method.returnsValue then .aborted (.exit missingReturn) else .returned none

/-- What is seen of a method that is done with its block. -/
def Method.observe (method : Method) : Completion → Observation
  | .next memory | .leftLoop memory | .nextRound memory =>
    ⟨memory.calls, some (memory.stop method.atEnd)⟩
  | .ended ending => ⟨ending.calls, some ending⟩
  | .unfinished calls => ⟨calls, none⟩

/-- The behaviour of a method with some arguments and fields. -/
def Method.behaviour (method : Method) (args : Nat → Word) (globals : Globals) : Behaviour :=
  fun rounds => method.observe
    (execBlock world rounds false method.body ⟨bindParams args 0 method.params [], globals, []⟩)

end

end DecafBackend.Source
