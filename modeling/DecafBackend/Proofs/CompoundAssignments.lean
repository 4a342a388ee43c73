import DecafBackend.Proofs.LoweringMethods

/-! # Compound assignments

    A compound assignment `x += e` computes `e` first and reads `x` afterwards, where
    its expansion `x = x + e` reads `x` first.  Only a call in `e` can come between,
    and only if the callee changes the field `x`.  Everywhere else an assignment may be
    replaced by its expansion, anywhere in a method, and the body that the method is
    lowered to behaves as before.

    * `Spares`, `Expr.callees` — callees that leave a field alone
    * `Stmt.Expands` — some compound assignments are replaced by their expansions
    * `globals_evalExpr` — what expressions leave alone
    * `execStmt_of_expands` — the tree does the same
    * `lowerMethod_expanded_same` — so do the bodies
    * `bumpedTotal_differs` — a callee in between -/

namespace DecafBackend.Source

/-! ## Callees -/

/-- A routine leaves a field as it is whenever it is called. -/
def Spares (environment : Environment) (routine field : String) : Prop :=
  ∀ event calls, event.target = routine →
    (environment (event :: calls)).globals field = event.globals field

mutual

/-- The routines that the evaluation of an expression may call. -/
def Expr.callees : Expr → List String
  | .call call => call.callees
  | .binary _ lhs rhs => lhs.callees ++ rhs.callees
  | .unary _ operand => operand.callees
  | .int _ | .bool _ | .var _ => []

/-- The routines that a call may call: those of its arguments, and the callee. -/
def Call.callees : Call → List String
  | .mk name args _ => name :: argCallees args

/-- The routines that the evaluation of arguments may call. -/
def argCallees : List Arg → List String
  | [] => []
  | .text _ :: rest => argCallees rest
  | .expr value :: rest => value.callees ++ argCallees rest

end

section

variable {world : World} {field : String}

/-- A callout that spares a field leaves it as it is. -/
theorem globals_callOut {memory memory' : Memory} {target : String} {args : List Word}
    {word : Word} (hspares : Spares world.environment target field)
    (h : memory.callOut world target args = .ok (word, memory')) :
    memory'.globals field = memory.globals field := by
  rw [Memory.callOut] at h
  split at h
  · cases h
    exact hspares ⟨target, args, memory.globals⟩ memory.calls rfl
  · cases h

mutual

/-- An expression whose callees leave a field alone does so too. -/
theorem globals_evalExpr : ∀ {expr : Expr} {memory memory' : Memory} {word : Word},
    (∀ routine ∈ expr.callees, Spares world.environment routine field) →
    evalExpr world expr memory = .ok (word, memory') →
      memory'.globals field = memory.globals field
  | .int _, _, _, _, _, h | .bool _, _, _, _, _, h | .var _, _, _, _, _, h => by
      rw [evalExpr] at h
      cases h
      rfl
  | .call call, _, _, _, hspares, h => by
      rw [evalExpr] at h
      rw [Expr.callees] at hspares
      exact globals_evalCall hspares h
  | .binary (.strict op) lhs rhs, _, _, _, hspares, h => by
      rw [evalExpr] at h
      rw [Expr.callees, List.forall_mem_append] at hspares
      obtain ⟨left, hleft, h⟩ := Lowering.bind_eq_ok h
      obtain ⟨right, hright, h⟩ := Lowering.bind_eq_ok h
      obtain ⟨value, -, h⟩ := Lowering.bind_eq_ok h
      cases h
      exact (globals_evalExpr hspares.2 hright).trans (globals_evalExpr hspares.1 hleft)
  | .binary .and lhs rhs, _, _, _, hspares, h | .binary .or lhs rhs, _, _, _, hspares, h => by
      rw [evalExpr] at h
      rw [Expr.callees, List.forall_mem_append] at hspares
      obtain ⟨left, hleft, h⟩ := Lowering.bind_eq_ok h
      dsimp only at h
      split at h
      all_goals
        first
          | exact (globals_evalExpr hspares.2 h).trans (globals_evalExpr hspares.1 hleft)
          | cases h
            exact globals_evalExpr hspares.1 hleft
  | .unary op operand, _, _, _, hspares, h => by
      rw [evalExpr] at h
      rw [Expr.callees] at hspares
      obtain ⟨value, hvalue, h⟩ := Lowering.bind_eq_ok h
      cases h
      exact globals_evalExpr hspares hvalue

/-- A call whose callees leave a field alone does so too. -/
theorem globals_evalCall : ∀ {call : Call} {memory memory' : Memory} {word : Word},
    (∀ routine ∈ call.callees, Spares world.environment routine field) →
    evalCall world call memory = .ok (word, memory') →
      memory'.globals field = memory.globals field
  | .mk name args isCallout, _, _, _, hspares, h => by
      rw [evalCall] at h
      rw [Call.callees, List.forall_mem_cons] at hspares
      obtain ⟨words, hwords, h⟩ := Lowering.bind_eq_ok h
      exact (globals_callOut hspares.1 h).trans (globals_evalArgs hspares.2 hwords)

/-- So do arguments. -/
theorem globals_evalArgs : ∀ {args : List Arg} {memory memory' : Memory} {words : List Word},
    (∀ routine ∈ argCallees args, Spares world.environment routine field) →
    evalArgs world args memory = .ok (words, memory') →
      memory'.globals field = memory.globals field
  | [], _, _, _, _, h => by
      rw [evalArgs] at h
      cases h
      rfl
  | .text value :: rest, _, _, _, hspares, h => by
      rw [evalArgs] at h
      rw [argCallees] at hspares
      obtain ⟨words, hwords, h⟩ := Lowering.bind_eq_ok h
      cases h
      exact globals_evalArgs hspares hwords
  | .expr value :: rest, _, _, _, hspares, h => by
      rw [evalArgs] at h
      rw [argCallees, List.forall_mem_append] at hspares
      obtain ⟨word, hword, h⟩ := Lowering.bind_eq_ok h
      obtain ⟨words, hwords, h⟩ := Lowering.bind_eq_ok h
      cases h
      exact (globals_evalArgs hspares.2 hwords).trans (globals_evalExpr hspares.1 hword)

end

end

/-! ## Names in scope -/

/-- The names of the variables in scope. -/
def Memory.names (memory : Memory) : List String := memory.vars.map Prod.fst

/-- To assign a variable declares none. -/
theorem names_assignVar (name : String) (word : Word) (vars : List (String × Word)) :
    (assignVar name word vars).map Prod.fst = vars.map Prod.fst := by
  induction vars with
  | nil => rfl
  | cons pair rest ih =>
      obtain ⟨other, old⟩ := pair
      rw [assignVar]
      split
      · rfl
      · rw [List.map_cons, ih, List.map_cons]

/-- To set a variable declares none. -/
@[simp] theorem Memory.names_set (memory : Memory) (name : String) (word : Word) :
    (memory.set name word).names = memory.names := by
  rw [Memory.set]
  split
  · exact names_assignVar name word memory.vars
  · rfl

/-- A declaration adds its names in front. -/
theorem Memory.names_declare (memory : Memory) (locals : List String) :
    (memory.declare locals).names = locals.reverse ++ memory.names := by
  rw [Memory.declare, Memory.names, Memory.names]
  generalize memory.vars = vars
  induction locals generalizing vars with
  | nil => rfl
  | cons name rest ih => rw [List.foldl_cons, ih, List.reverse_cons, List.append_assoc]; rfl

/-- At the end of a block its names are gone. -/
theorem Memory.names_drop (memory : Memory) (count : Nat) :
    (memory.drop count).names = memory.names.drop count :=
  List.map_drop

/-- Expressions leave the names in scope as they are. -/
theorem names_evalExpr {world : World} {expr : Expr} {memory memory' : Memory} {word : Word}
    (h : evalExpr world expr memory = .ok (word, memory')) : memory'.names = memory.names := by
  rw [Memory.names, Memory.names, Lowering.vars_evalExpr h]

/-- What control leaves behind has these names in scope. -/
def Completion.Within (names : List String) : Completion → Prop
  | next memory | leftLoop memory | nextRound memory => memory.names = names
  | ended _ | unfinished _ => True

/-- The test of a counting loop keeps the names in scope. -/
theorem names_operate_test {world : World} {var : String} {limit word : Word}
    {memory memory' : Memory}
    (h : (·, memory) <$> memory.operate world .lt (memory.get var) limit = .ok (word, memory')) :
    memory'.names = memory.names := by
  cases hless : memory.operate world .lt (memory.get var) limit with
  | error ending => rw [hless] at h; cases h
  | ok less => rw [hless] at h; cases h; rfl

/-- So does its increment. -/
theorem names_operate_set {world : World} {var : String} {memory memory' : Memory}
    (h : memory.set var <$> memory.operate world .add (memory.get var) 1 = .ok memory') :
    memory'.names = memory.names := by
  cases hsum : memory.operate world .add (memory.get var) 1 with
  | error ending => rw [hsum] at h; cases h
  | ok sum => rw [hsum] at h; cases h; exact memory.names_set var sum

section

variable {world : World} {test : Memory → Except Ending (Word × Memory)}
  {body body' : Memory → Completion} {after : Memory → Except Ending Memory}

/-- A loop keeps the names in scope if its parts do. -/
theorem within_loop
    (htest : ∀ {memory word memory'}, test memory = .ok (word, memory') →
      memory'.names = memory.names)
    (hbody : ∀ memory, (body memory).Within memory.names)
    (hafter : ∀ {memory memory'}, after memory = .ok memory' → memory'.names = memory.names)
    (rounds : Nat) (memory : Memory) :
    (loop test body after rounds memory).Within memory.names := by
  -- by induction on the rounds: each one hands the names on to the next
  induction rounds generalizing memory with
  | zero => trivial
  | succ rounds ih =>
      rw [loop]
      cases hresult : test memory with
      | error ending => trivial
      | ok result =>
          obtain ⟨word, memory₁⟩ := result
          have hnames := htest hresult
          dsimp only
          split
          · exact hnames
          have hround := hbody memory₁
          cases hleft : body memory₁ with
          | next memory₂ | nextRound memory₂ =>
              rw [hleft] at hround
              dsimp only
              cases hstep : after memory₂ with
              | error ending => trivial
              | ok memory₃ =>
                  dsimp only
                  rw [← hnames, ← show memory₂.names = memory₁.names from hround, ← hafter hstep]
                  exact ih memory₃
          | leftLoop memory₂ =>
              rw [hleft] at hround
              exact hround.trans hnames
          | ended | unfinished => trivial

/-- Two loops do the same if their bodies do wherever the names are in scope. -/
theorem loop_congr {names : List String}
    (htest : ∀ {memory word memory'}, test memory = .ok (word, memory') →
      memory'.names = memory.names)
    (hbody : ∀ memory, (body memory).Within memory.names)
    (hafter : ∀ {memory memory'}, after memory = .ok memory' → memory'.names = memory.names)
    (hsame : ∀ memory, memory.names = names → body memory = body' memory)
    (rounds : Nat) {memory : Memory} (hnames : memory.names = names) :
    loop test body after rounds memory = loop test body' after rounds memory := by
  induction rounds generalizing memory with
  | zero => rfl
  | succ rounds ih =>
      rw [loop, loop]
      cases hresult : test memory with
      | error ending => rfl
      | ok result =>
          obtain ⟨word, memory₁⟩ := result
          have hnames₁ := (htest hresult).trans hnames
          dsimp only
          split
          · rfl
          have hround := hbody memory₁
          rw [← hsame memory₁ hnames₁]
          cases hleft : body memory₁ with
          | next memory₂ | nextRound memory₂ =>
              rw [hleft] at hround
              dsimp only
              cases hstep : after memory₂ with
              | error ending => rfl
              | ok memory₃ => exact ih ((hafter hstep).trans (hround.trans hnames₁))
          | leftLoop | ended | unfinished => rfl

/-- Behind a block the names are those in front of it. -/
theorem Completion.Within.drop {locals : List String} {names : List String}
    {completion : Completion} (h : completion.Within (locals.reverse ++ names)) :
    (completion.drop locals.length).Within names := by
  have hdrop : ∀ {memory : Memory}, memory.names = locals.reverse ++ names →
      (memory.drop locals.length).names = names := by
    intro memory hnames
    rw [Memory.names_drop, hnames]
    exact List.drop_left' List.length_reverse
  cases completion with
  | next memory | leftLoop memory | nextRound memory => exact hdrop h
  | ended | unfinished => trivial

mutual

/-- Statements leave the names in scope as they are. -/
theorem within_execStmt (rounds : Nat) (inLoop : Bool) : ∀ (stmt : Stmt) (memory : Memory),
    (execStmt world rounds inLoop stmt memory).Within memory.names
  | .assign target op value, memory => by
      rw [execStmt]
      cases hvalue : evalExpr world value memory with
      | error ending => trivial
      | ok result =>
          dsimp only
          cases assigned world result.2 target result.1 op with
          | error ending => trivial
          | ok word => exact (result.2.names_set target word).trans (names_evalExpr hvalue)
  | .call call, memory => by
      rw [execStmt]
      cases hcall : evalCall world call memory with
      | error ending => trivial
      | ok result =>
          show result.2.names = memory.names
          rw [Memory.names, Memory.names, Lowering.vars_evalCall hcall]
  | .cond cond thenBlock none, memory => by
      rw [execStmt]
      cases hcond : evalExpr world cond memory with
      | error ending => trivial
      | ok result =>
          rw [← names_evalExpr hcond]
          dsimp only
          split
          · rfl
          · exact within_execBlock rounds inLoop thenBlock result.2
  | .cond cond thenBlock (some elseBlock), memory => by
      rw [execStmt]
      cases hcond : evalExpr world cond memory with
      | error ending => trivial
      | ok result =>
          rw [← names_evalExpr hcond]
          dsimp only
          split
          · exact within_execBlock rounds inLoop elseBlock result.2
          · exact within_execBlock rounds inLoop thenBlock result.2
  | .whileLoop cond body, memory => by
      rw [execStmt]
      exact within_loop names_evalExpr (within_execBlock rounds true body)
        (fun h => by cases h; rfl) rounds memory
  | .forLoop var start bound body, memory => by
      rw [execStmt]
      cases hstart : evalExpr world start memory with
      | error ending => trivial
      | ok first =>
          dsimp only
          cases hbound : evalExpr world bound (first.2.set var first.1) with
          | error ending => trivial
          | ok limit =>
              have hnames : limit.2.names = memory.names := by
                rw [names_evalExpr hbound, Memory.names_set, names_evalExpr hstart]
              rw [← hnames]
              exact within_loop names_operate_test (within_execBlock rounds true body)
                names_operate_set rounds limit.2
  | .ret none, memory => by
      rw [execStmt]
      trivial
  | .ret (some value), memory => by
      rw [execStmt]
      cases evalExpr world value memory <;> trivial
  | .breakLoop, memory => by
      rw [execStmt]
      cases inLoop <;> rfl
  | .continueLoop, memory => by
      rw [execStmt]
      cases inLoop <;> rfl
  | .block block, memory => by
      rw [execStmt]
      exact within_execBlock rounds inLoop block memory

/-- Blocks leave the names in scope as they are. -/
theorem within_execBlock (rounds : Nat) (inLoop : Bool) : ∀ (block : Block) (memory : Memory),
    (execBlock world rounds inLoop block memory).Within memory.names
  | .mk locals stmts, memory => by
      rw [execBlock]
      apply Completion.Within.drop
      rw [← Memory.names_declare]
      exact within_execStmts rounds inLoop stmts (memory.declare locals)

/-- Lists of statements leave the names in scope as they are. -/
theorem within_execStmts (rounds : Nat) (inLoop : Bool) : ∀ (stmts : List Stmt) (memory : Memory),
    (execStmts world rounds inLoop stmts memory).Within memory.names
  | [], memory => by
      rw [execStmts]
      rfl
  | stmt :: rest, memory => by
      have hfirst := within_execStmt rounds inLoop stmt memory
      rw [execStmts]
      cases hresult : execStmt world rounds inLoop stmt memory with
      | next memory₁ =>
          rw [hresult] at hfirst
          rw [← show memory₁.names = memory.names from hfirst]
          exact within_execStmts rounds inLoop rest memory₁
      | leftLoop | nextRound | ended | unfinished =>
          rw [hresult] at hfirst
          exact hfirst

end

end

/-! ## Expansions -/

/-- The operator of a compound assignment. -/
def AssignOp.operator? : AssignOp → Option BinaryOp
  | .assign => none
  | .addAssign => some .add
  | .subAssign => some .sub

/-- The expansion of a compound assignment: the target is read first. -/
def Stmt.expansion (target : String) (operator : BinaryOp) (value : Expr) : Stmt :=
  .assign target .assign (.binary (.strict operator) (.var target) value)

/-- Nothing that a value calls can change a target: it is one of the variables in
    scope, or a field that all callees leave alone. -/
def Settled (environment : Environment) (vars : List String) (target : String)
    (value : Expr) : Prop :=
  target ∈ vars ∨ ∀ routine ∈ value.callees, Spares environment routine target

mutual

/-- A statement with some of its compound assignments expanded, where these variables
    are in scope. -/
inductive Stmt.Expands (environment : Environment) : List String → Stmt → Stmt → Prop
  /-- None of them. -/
  | same (vars : List String) (stmt : Stmt) : Stmt.Expands environment vars stmt stmt
  /-- A compound assignment itself. -/
  | compound {vars : List String} {target : String} {op : AssignOp} {operator : BinaryOp}
      {value : Expr} (hop : op.operator? = some operator)
      (hsettled : Settled environment vars target value) :
      Stmt.Expands environment vars (.assign target op value)
        (Stmt.expansion target operator value)
  /-- Some in a branch. -/
  | cond {vars : List String} {test : Expr} {thenBlock thenBlock' : Block}
      (hthen : Block.Expands environment vars thenBlock thenBlock') :
      Stmt.Expands environment vars (.cond test thenBlock none) (.cond test thenBlock' none)
  /-- Some in two branches. -/
  | condElse {vars : List String} {test : Expr} {thenBlock thenBlock' elseBlock elseBlock' : Block}
      (hthen : Block.Expands environment vars thenBlock thenBlock')
      (helse : Block.Expands environment vars elseBlock elseBlock') :
      Stmt.Expands environment vars (.cond test thenBlock (some elseBlock))
        (.cond test thenBlock' (some elseBlock'))
  /-- Some in the body of a loop. -/
  | whileLoop {vars : List String} {test : Expr} {body body' : Block}
      (hbody : Block.Expands environment vars body body') :
      Stmt.Expands environment vars (.whileLoop test body) (.whileLoop test body')
  /-- Some in the body of a counting loop. -/
  | forLoop {vars : List String} {var : String} {start bound : Expr} {body body' : Block}
      (hbody : Block.Expands environment vars body body') :
      Stmt.Expands environment vars (.forLoop var start bound body)
        (.forLoop var start bound body')
  /-- Some in a nested block. -/
  | block {vars : List String} {block block' : Block}
      (hblock : Block.Expands environment vars block block') :
      Stmt.Expands environment vars (.block block) (.block block')

/-- A block with some of its compound assignments expanded. -/
inductive Block.Expands (environment : Environment) : List String → Block → Block → Prop
  /-- The block's own variables come into scope. -/
  | mk {vars locals : List String} {stmts stmts' : List Stmt}
      (hstmts : StmtsExpand environment (locals.reverse ++ vars) stmts stmts') :
      Block.Expands environment vars (.mk locals stmts) (.mk locals stmts')

/-- Statements with some of their compound assignments expanded. -/
inductive StmtsExpand (environment : Environment) : List String → List Stmt → List Stmt → Prop
  /-- There are none. -/
  | nil (vars : List String) : StmtsExpand environment vars [] []
  /-- The first one and the others. -/
  | cons {vars : List String} {stmt stmt' : Stmt} {rest rest' : List Stmt}
      (hstmt : Stmt.Expands environment vars stmt stmt')
      (hrest : StmtsExpand environment vars rest rest') :
      StmtsExpand environment vars (stmt :: rest) (stmt' :: rest')

end

/-- A method with some of its compound assignments expanded. -/
def Method.Expands (environment : Environment) (method method' : Method) : Prop :=
  ∃ body, Block.Expands environment method.params.reverse method.body body ∧
    method' = { method with body }

section

variable {world : World} {vars : List String}

/-- The value of a settled target is the same before and after the value. -/
theorem get_evalExpr {target : String} {value : Expr} {memory memory' : Memory} {word : Word}
    (hsettled : Settled world.environment memory.names target value)
    (h : evalExpr world value memory = .ok (word, memory')) :
    memory'.get target = memory.get target := by
  rw [Memory.get, Memory.get, Lowering.vars_evalExpr h]
  cases hfound : memory.vars.lookup target with
  | some old => rfl
  | none =>
      rcases hsettled with hmem | hspares
      · -- the first variable of that name would have been found
        obtain ⟨pair, hpair, rfl⟩ := List.mem_map.mp hmem
        have hnone := List.lookup_eq_none_iff.mp hfound pair hpair
        rw [bne_self_eq_false] at hnone
        cases hnone
      · exact globals_evalExpr hspares h

/-- **ONE EXPANSION**: where the target is settled, a compound assignment does what
    its expansion does. -/
theorem execStmt_expansion {target : String} {op : AssignOp} {operator : BinaryOp} {value : Expr}
    {memory : Memory} (hop : op.operator? = some operator)
    (hsettled : Settled world.environment memory.names target value) (rounds : Nat)
    (inLoop : Bool) :
    execStmt world rounds inLoop (.assign target op value) memory =
      execStmt world rounds inLoop (Stmt.expansion target operator value) memory := by
  have hassigned : ∀ (after : Memory) (word : Word), assigned world after target word op =
      after.operate world operator (after.get target) word := by
    intro after word
    cases op with
    | assign => cases hop
    | addAssign | subAssign =>
        cases hop
        rfl
  -- the target is read first in the expansion, but the value leaves it alone
  have hsum : evalExpr world (.binary (.strict operator) (.var target) value) memory =
      (evalExpr world value memory >>= fun result => do
        return (← result.2.operate world operator (memory.get target) result.1, result.2)) := by
    rw [evalExpr, evalExpr]
    rfl
  rw [Stmt.expansion, execStmt, execStmt, hsum]
  cases hvalue : evalExpr world value memory with
  | error ending => rfl
  | ok result =>
      obtain ⟨word, after⟩ := result
      dsimp only
      rw [hassigned, get_evalExpr hsettled hvalue]
      simp only [bind, Except.bind]
      cases after.operate world operator (memory.get target) word <;> rfl

mutual

/-- **EXPANSIONS ANYWHERE** in a statement change nothing of what it does. -/
theorem execStmt_of_expands (rounds : Nat) (inLoop : Bool) : ∀ {vars : List String}
    {stmt stmt' : Stmt} {memory : Memory}, Stmt.Expands world.environment vars stmt stmt' →
    memory.names = vars →
    execStmt world rounds inLoop stmt memory = execStmt world rounds inLoop stmt' memory
  | _, _, _, _, .same vars stmt, _ => rfl
  | _, _, _, _, .compound hop hsettled, rfl => execStmt_expansion hop hsettled rounds inLoop
  | _, _, _, memory, @Stmt.Expands.cond _ _ test _ _ hthen, rfl => by
      rw [execStmt, execStmt]
      cases htest : evalExpr world test memory with
      | error ending => rfl
      | ok result =>
          dsimp only
          rw [execBlock_of_expands rounds inLoop hthen (names_evalExpr htest)]
  | _, _, _, memory, @Stmt.Expands.condElse _ _ test _ _ _ _ hthen helse, rfl => by
      rw [execStmt, execStmt]
      cases htest : evalExpr world test memory with
      | error ending => rfl
      | ok result =>
          dsimp only
          rw [execBlock_of_expands rounds inLoop hthen (names_evalExpr htest),
            execBlock_of_expands rounds inLoop helse (names_evalExpr htest)]
  | _, _, _, memory, .whileLoop hbody, hnames => by
      rw [execStmt, execStmt]
      exact loop_congr names_evalExpr (within_execBlock rounds true _)
        (fun h => by cases h; rfl)
        (fun _ hsame => execBlock_of_expands rounds true hbody hsame) rounds hnames
  | _, _, _, memory, @Stmt.Expands.forLoop _ _ var start bound _ _ hbody, hnames => by
      rw [execStmt, execStmt]
      cases hstart : evalExpr world start memory with
      | error ending => rfl
      | ok first =>
          dsimp only
          cases hbound : evalExpr world bound (first.2.set var first.1) with
          | error ending => rfl
          | ok limit =>
              have hnames' : limit.2.names = memory.names := by
                rw [names_evalExpr hbound, Memory.names_set, names_evalExpr hstart]
              exact loop_congr names_operate_test (within_execBlock rounds true _)
                names_operate_set (fun _ hsame => execBlock_of_expands rounds true hbody hsame)
                rounds (hnames'.trans hnames)
  | _, _, _, memory, .block hblock, hnames => by
      rw [execStmt, execStmt]
      exact execBlock_of_expands rounds inLoop hblock hnames

/-- Expansions anywhere in a block change nothing of what it does. -/
theorem execBlock_of_expands (rounds : Nat) (inLoop : Bool) : ∀ {vars : List String}
    {block block' : Block} {memory : Memory}, Block.Expands world.environment vars block block' →
    memory.names = vars →
    execBlock world rounds inLoop block memory = execBlock world rounds inLoop block' memory
  | _, _, _, memory, @Block.Expands.mk _ _ locals _ _ hstmts, rfl => by
      rw [execBlock, execBlock,
        execStmts_of_expand rounds inLoop hstmts (memory.names_declare locals)]

/-- Expansions anywhere in a list of statements change nothing of what it does. -/
theorem execStmts_of_expand (rounds : Nat) (inLoop : Bool) : ∀ {vars : List String}
    {stmts stmts' : List Stmt} {memory : Memory},
    StmtsExpand world.environment vars stmts stmts' → memory.names = vars →
    execStmts world rounds inLoop stmts memory = execStmts world rounds inLoop stmts' memory
  | _, _, _, _, .nil vars, _ => rfl
  | _, _, _, memory, @StmtsExpand.cons _ _ stmt _ _ _ hstmt hrest, rfl => by
      -- the rest may be expanded in the scope that the first statement leaves
      have hfirst : (execStmt world rounds inLoop stmt memory).Within memory.names :=
        within_execStmt rounds inLoop stmt memory
      rw [execStmts, execStmts, ← execStmt_of_expands rounds inLoop hstmt rfl]
      cases hresult : execStmt world rounds inLoop stmt memory with
      | next memory₁ =>
          rw [hresult] at hfirst
          exact execStmts_of_expand rounds inLoop hrest hfirst
      | leftLoop | nextRound | ended | unfinished => rfl

end

/-- The parameters are in scope at the start of a method. -/
theorem names_bindParams (args : Nat → Word) (position : Nat) (params : List String)
    (vars : List (String × Word)) :
    (bindParams args position params vars).map Prod.fst = params.reverse ++ vars.map Prod.fst := by
  induction params generalizing position vars with
  | nil => rfl
  | cons name rest ih =>
      rw [bindParams, ih, List.reverse_cons, List.append_assoc]
      rfl

/-- A method with expansions behaves as before. -/
theorem Method.behaviour_of_expands {method method' : Method}
    (h : Method.Expands world.environment method method') (args : Nat → Word)
    (globals : Globals) :
    method'.behaviour world args globals = method.behaviour world args globals := by
  obtain ⟨body, hbody, rfl⟩ := h
  funext rounds
  have hnames : (⟨bindParams args 0 method.params [], globals, []⟩ : Memory).names =
      method.params.reverse := by
    rw [Memory.names, names_bindParams]
    exact List.append_nil _
  have hsame := execBlock_of_expands rounds false hbody hnames
  show Method.observe _ (execBlock world rounds false body _) =
    method.observe (execBlock world rounds false method.body _)
  rw [← hsame]
  rfl

end

end DecafBackend.Source

namespace DecafBackend.Lowering

open Source

/-- The body of a method behaves like the method. -/
theorem lowered_same (symbols : SymbolPool) (method : Method) (world : World) (args : Nat → Word)
    (globals : Globals) :
    Behaviour.Same (method.behaviour world args globals)
      ((lowerMethod symbols method).1.behaviour
        (settingOf world (lowerMethod symbols method).2 args)
        { locals := fun _ => none, globals }) := by
  apply finished_same_behaviour symbols method world args globals
  intro symbol text htext
  rw [(finished_eq symbols method).2]
  exact htext

/-- **COMPOUND ASSIGNMENTS MEAN THEIR EXPANSIONS** unless a callee comes between: a
    method in which any compound assignments are replaced by their expansions is
    lowered to a body that behaves like the body of the method, for all arguments and
    fields, if the target of each of them is a variable or a field that no routine
    called in the value changes. -/
theorem lowerMethod_expanded_same {world : World} {method method' : Method}
    (h : Method.Expands world.environment method method') (symbols symbols' : SymbolPool)
    (args : Nat → Word) (globals : Globals) :
    Behaviour.Same
      ((lowerMethod symbols method).1.behaviour
        (settingOf world (lowerMethod symbols method).2 args)
        { locals := fun _ => none, globals })
      ((lowerMethod symbols' method').1.behaviour
        (settingOf world (lowerMethod symbols' method').2 args)
        { locals := fun _ => none, globals }) := by
  have hbefore := lowered_same symbols method world args globals
  have hafter := lowered_same symbols' method' world args globals
  rw [Method.behaviour_of_expands h args globals] at hafter
  exact hbefore.symm.trans hafter

/-! ## A variable and a field in a loop -/

/-- Callees return two and change the field `clock` only. -/
def ticking : World where
  literal _ := 0
  environment
    | [] => ⟨fun _ => 0, .ok 2⟩
    | event :: _ =>
      ⟨fun field => if field = "clock" then 7 else event.globals field, .ok 2⟩

/-- A call without arguments. -/
def plainCall (name : String) : Expr := .call (.mk name [] false)

/-- A loop with compound assignments to a variable and to a field, whose values have
    calls. -/
def tickingLoop (first second third : Stmt) : Method where
  name := "main"
  params := ["n"]
  returnsValue := true
  body := .mk ["sum"]
    [.whileLoop (.var "n") (.mk [] [first, second, third]), .ret (some (.var "sum"))]

/-- All three assignments of the loop may be expanded, though two of them call. -/
theorem tickingLoop_expanded_same :
    let method := tickingLoop (.assign "sum" .addAssign (plainCall "tick"))
      (.assign "total" .subAssign (plainCall "tick")) (.assign "n" .subAssign (.int 1))
    let method' := tickingLoop (Stmt.expansion "sum" .add (plainCall "tick"))
      (Stmt.expansion "total" .sub (plainCall "tick")) (Stmt.expansion "n" .sub (.int 1))
    Method.Expands ticking.environment method method' ∧
    Behaviour.Same
      ((lowerMethod {} method).1.behaviour
        (settingOf ticking (lowerMethod {} method).2 fun _ => 3)
        { locals := fun _ => none, globals := fun _ => 0 })
      ((lowerMethod {} method').1.behaviour
        (settingOf ticking (lowerMethod {} method').2 fun _ => 3)
        { locals := fun _ => none, globals := fun _ => 0 }) := by
  intro method method'
  have hspares : Spares ticking.environment "tick" "total" := fun _ _ _ => rfl
  have htotal : Settled ticking.environment ["sum", "n"] "total" (plainCall "tick") :=
    Or.inr (List.forall_mem_singleton.mpr hspares)
  have hsum : Settled ticking.environment ["sum", "n"] "sum" (plainCall "tick") :=
    Or.inl List.mem_cons_self
  have hcount : Settled ticking.environment ["sum", "n"] "n" (.int 1) :=
    Or.inl (List.mem_cons_of_mem _ List.mem_cons_self)
  have hexpands : Method.Expands ticking.environment method method' := by
    refine ⟨method'.body, .mk (.cons (.whileLoop (.mk ?_)) (.cons (.same _ _) (.nil _))), rfl⟩
    exact .cons (.compound rfl hsum) (.cons (.compound rfl htotal)
      (.cons (.compound rfl hcount) (.nil _)))
  exact ⟨hexpands, lowerMethod_expanded_same hexpands {} {} (fun _ => 3) fun _ => 0⟩

/-! ## A callee in between -/

/-- The callee sets the field `total` to ten and returns one. -/
def bumping : World where
  literal _ := 0
  environment
    | [] => ⟨fun _ => 0, .ok 1⟩
    | event :: _ => ⟨fun field => if field = "total" then 10 else event.globals field, .ok 1⟩

/-- A method of one statement. -/
def single (stmt : Stmt) : Method where
  name := "main"
  params := []
  returnsValue := false
  body := .mk [] [stmt]

/-- `total += bump()` leaves eleven in the field, and `total = total + bump()` leaves
    one. -/
theorem bumpedTotal_differs :
    let method := single (.assign "total" .addAssign (plainCall "bump"))
    let method' := single (Stmt.expansion "total" .add (plainCall "bump"))
    ¬Behaviour.Same
      ((lowerMethod {} method).1.behaviour
        (settingOf bumping (lowerMethod {} method).2 fun _ => 0)
        { locals := fun _ => none, globals := fun _ => 0 })
      ((lowerMethod {} method').1.behaviour
        (settingOf bumping (lowerMethod {} method').2 fun _ => 0)
        { locals := fun _ => none, globals := fun _ => 0 }) := by
  intro method method' hsame
  -- the trees behave as the lowered methods, so they would end alike
  have htrees := ((lowered_same {} method bumping (fun _ => 0) fun _ => 0).trans hsame).trans
    (lowered_same {} method' bumping (fun _ => 0) fun _ => 0).symm
  have hends : ∀ rounds, ((method.behaviour bumping (fun _ => 0) (fun _ => 0) rounds).ending.map
      fun ending => ending.globals "total") = some 11 := by
    intro rounds
    rfl
  have hends' : ∀ rounds, ((method'.behaviour bumping (fun _ => 0) (fun _ => 0) rounds).ending.map
      fun ending => ending.globals "total") = some 1 := by
    intro rounds
    rfl
  obtain ⟨ending, hending, heleven⟩ := Option.map_eq_some_iff.mp (hends 0)
  obtain ⟨rounds, hother⟩ := (htrees.ends ending).mp ⟨0, hending⟩
  have hone := hends' rounds
  rw [hother, Option.map_some, heleven] at hone
  cases hone

end DecafBackend.Lowering
