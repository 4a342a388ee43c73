import DecafBackend.Proofs.DeadSavesElimination
import DecafBackend.Proofs.LoweringMethods

/-! # Runs without traps

    In a calm setting operators do not trap and callees come back.  A run that
    comes to an undefined read does so in the calm setting too, and there the body
    of a method always comes to a return, if it comes to an end at all.  So bodies
    of methods read nothing undefined, and neither do bodies that behave like them
    in calm settings.

    * `Setting.calm`, `unstuck_of_calm` — undefined reads are the same
    * `returns_execStmt` — the tree returns in a calm world
    * `lowerMethod_unfailing` — so do bodies of methods -/

namespace DecafBackend

/-- The reply of a callee that comes back. -/
def Reply.calm (reply : Reply) : Reply :=
  { reply with result := .ok (reply.result.toOption.getD 0) }

/-- A setting without traps in which callees come back. -/
def Setting.calm (setting : Setting) : Setting :=
  { setting with
    arithmetic := .quiet
    environment := fun calls => (setting.environment calls).calm }

/-- A reply that brings a value is calm already. -/
theorem Reply.calm_eq {reply : Reply} {value : Word} (h : reply.result = .ok value) :
    reply.calm = reply := by
  obtain ⟨globals, result⟩ := reply
  dsimp only at h
  subst h
  rfl

/-! ## Undefined reads -/

namespace Body

variable {setting : Setting} {body : Body}

/-- What a result is in the calm setting: the same, unless it aborts. -/
def Calmed (result calm : Except Ending Reached) : Prop :=
  match result with
  | .ok reached => calm = .ok reached
  | .error ending => ending.outcome = .stuck → calm = .error ending

/-- A call comes to the same in the calm setting, unless it aborts. -/
theorem callWith_calm (store : Store) (calls : List CallEvent) (target : Symbol)
    (args : List Word) : Calmed (callWith setting store calls target args)
      (callWith setting.calm store calls target args) := by
  rw [callWith]
  cases hresult : (setting.environment
      (⟨setting.routine target, args, store.globals⟩ :: calls)).result with
  | ok value =>
      have hreply : setting.calm.environment
          (⟨setting.routine target, args, store.globals⟩ :: calls) =
          setting.environment (⟨setting.routine target, args, store.globals⟩ :: calls) :=
        Reply.calm_eq hresult
      dsimp only
      rw [Calmed, callWith, show setting.calm.routine = setting.routine from rfl, hreply, hresult]
  | error abort => exact fun hstuck => by cases hstuck

/-- A call with its arguments read comes to the same in the calm setting. -/
theorem callOut_calm (store : Store) (calls : List CallEvent) (target : Symbol) (args : List Loc) :
    Calmed (body.callOut setting store calls target args)
      (body.callOut setting.calm store calls target args) := by
  have hread : body.read setting.calm store = body.read setting store := rfl
  rw [callOut, callOut, hread]
  cases args.mapM (body.read setting store) with
  | none => exact fun _ => rfl
  | some words => exact callWith_calm store calls target words

/-- A record is evaluated alike in the calm setting, unless that aborts. -/
theorem evaluateAt_calm (harithmetic : setting.arithmetic = .standard) (store : Store)
    (calls : List CallEvent) (inst : Inst) :
    Calmed (body.evaluateAt setting store calls inst)
      (body.evaluateAt setting.calm store calls inst) := by
  have hread : body.read setting.calm store = body.read setting store := rfl
  have hoperand : body.operand setting.calm store = body.operand setting store := rfl
  rw [evaluateAt, evaluateAt]
  cases body.records[inst.index]? with
  | none => exact fun _ => rfl
  | some record =>
      cases record with
      | load src =>
          simp only [evaluate, compute, hread]
          cases body.read setting store src with
          | none => exact fun _ => rfl
          | some word => rfl
      | param index => rfl
      | unary op operand =>
          simp only [evaluate, compute, hoperand]
          cases body.operand setting store operand with
          | none => exact fun _ => rfl
          | some word => rfl
      | binary op lhs rhs =>
          simp only [evaluate, compute, hoperand]
          cases body.operand setting store lhs with
          | none => exact fun _ => rfl
          | some a =>
              cases body.operand setting store rhs with
              | none => exact fun _ => rfl
              | some b =>
                  -- the calm setting divides by zero where the other one traps
                  have hquiet : setting.calm.arithmetic.apply op a b =
                      some ((op.apply a b).getD 0) := rfl
                  have hstandard : setting.arithmetic.apply op a b = op.apply a b := by
                    rw [harithmetic]
                    rfl
                  simp only [hquiet, hstandard]
                  cases op.apply a b with
                  | none => exact fun hstuck => by cases hstuck
                  | some word => rfl
      | call target args isExternal saved => exact callOut_calm store calls target args
      | save | use | label | jump | branch | ret | exit => exact fun _ => rfl

/-- A step that goes on, or comes to an undefined read, does so in the calm
    setting. -/
theorem stepFrom_calm (harithmetic : setting.arithmetic = .standard) (config : Config)
    (h : ∀ ending, body.stepFrom setting config = .ended ending → ending.outcome = .stuck) :
    body.stepFrom setting.calm config = body.stepFrom setting config := by
  -- reading and writing do not depend on what the callees reply
  have hread : body.read setting.calm = body.read setting := rfl
  have hwrite : body.write setting.calm = body.write setting := rfl
  have hoperand : body.operand setting.calm = body.operand setting := rfl
  rw [stepFrom] at h ⊢
  rw [stepFrom]
  cases hrest : config.rest with
  | nil => rfl
  | cons stmt rest =>
      rw [hrest] at h
      dsimp only at h ⊢
      cases hrecord : body.records[stmt.index]? with
      | none => rfl
      | some record =>
          rw [hrecord] at h
          dsimp only at h ⊢
          cases record with
          | save value dest =>
              have hvalue :=
                @evaluateAt_calm setting body harithmetic config.store config.calls value
              simp only [stepOver, hwrite] at h ⊢
              cases hresult : body.evaluateAt setting config.store config.calls value with
              | error ending =>
                  rw [hresult] at h hvalue
                  rw [hvalue (h ending rfl)]
              | ok reached =>
                  rw [hresult] at hvalue
                  rw [hvalue]
          | call target args isExternal saved =>
              have hcall := @callOut_calm setting body config.store config.calls target args
              simp only [stepOver] at h ⊢
              cases hresult : body.callOut setting config.store config.calls target args with
              | error ending =>
                  rw [hresult] at h hcall
                  rw [hcall (h ending rfl)]
              | ok reached =>
                  rw [hresult] at hcall
                  rw [hcall]
          | branch cond target => simp only [stepOver, hoperand]
          | ret value =>
              cases value with
              | none => rfl
              | some value => simp only [stepOver, hoperand]
          | load | param | unary | binary | use | label | jump | exit => rfl

/-- **NOTHING UNDEFINED IS READ** if nothing undefined is read in the calm setting. -/
theorem unstuck_of_calm (harithmetic : setting.arithmetic = .standard) {store : Store}
    (h : (body.behaviour setting.calm store).Unstuck) : (body.behaviour setting store).Unstuck := by
  intro ending hends hstuck
  obtain ⟨n, hrun⟩ := System.ends_iff.mp hends
  refine h ending (System.ends_iff.mpr ⟨n, ?_⟩) hstuck
  -- the calm run follows from any configuration, up to where the other one ends
  generalize body.start store = config at hrun
  induction n generalizing config with
  | zero => cases hrun
  | succ n ih =>
      have hsame : (∀ ending, body.stepFrom setting config = .ended ending →
          ending.outcome = .stuck) → (body.execution setting.calm).step config =
            (body.execution setting).step config := stepFrom_calm harithmetic config
      cases hstep : (body.execution setting).step config with
      | ended last =>
          rw [System.run_succ_ended hstep] at hrun
          cases hrun
          refine System.run_succ_ended ((hsame fun other hother => ?_).trans hstep) n
          cases hstep.symm.trans hother
          exact hstuck
      | going next =>
          rw [System.run_succ_going hstep] at hrun
          rw [System.run_succ_going ((hsame fun other hother => ?_).trans hstep)]
          · exact ih next hrun
          · cases hstep.symm.trans hother

end Body

/-! ## Trees -/

namespace Source

/-- A world without traps in which callees come back. -/
def World.calm (world : World) : World :=
  { world with
    arithmetic := .quiet
    environment := fun calls => (world.environment calls).calm }

section

variable (world : World)

/-- Arithmetic always has a result in a calm world. -/
theorem operate_calm (memory : Memory) (op : BinaryOp) (a b : Word) :
    ∃ word, memory.operate world.calm op a b = .ok word := ⟨_, rfl⟩

/-- Calls always reply in a calm world. -/
theorem callOut_calm (memory : Memory) (target : String) (args : List Word) :
    ∃ result, memory.callOut world.calm target args = .ok result := ⟨_, rfl⟩

mutual

/-- Expressions have a value in a calm world. -/
theorem evalExpr_calm : ∀ (expr : Expr) (memory : Memory),
    ∃ result, evalExpr world.calm expr memory = .ok result
  | .int value, memory => ⟨_, by rw [evalExpr]⟩
  | .bool value, memory => ⟨_, by rw [evalExpr]⟩
  | .var name, memory => ⟨_, by rw [evalExpr]⟩
  | .call call, memory => by
      rw [evalExpr]
      exact evalCall_calm call memory
  | .binary (.strict op) lhs rhs, memory => by
      obtain ⟨⟨left, memory₁⟩, hleft⟩ := evalExpr_calm lhs memory
      obtain ⟨⟨right, memory₂⟩, hright⟩ := evalExpr_calm rhs memory₁
      obtain ⟨word, hword⟩ := operate_calm world memory₂ op left right
      refine ⟨(word, memory₂), ?_⟩
      rw [evalExpr, hleft]
      show (evalExpr world.calm rhs memory₁ >>= _) = _
      rw [hright]
      simp only [bind, Except.bind, hword]
      rfl
  | .binary .and lhs rhs, memory => by
      obtain ⟨⟨left, memory₁⟩, hleft⟩ := evalExpr_calm lhs memory
      rw [evalExpr, hleft]
      -- the right operand is evaluated where the left one does not decide
      show ∃ result, (if left = 0 then pure (left, memory₁) else evalExpr world.calm rhs memory₁) =
        Except.ok result
      split
      · exact ⟨_, rfl⟩
      · exact evalExpr_calm rhs memory₁
  | .binary .or lhs rhs, memory => by
      obtain ⟨⟨left, memory₁⟩, hleft⟩ := evalExpr_calm lhs memory
      rw [evalExpr, hleft]
      show ∃ result, (if left = 0 then evalExpr world.calm rhs memory₁ else pure (left, memory₁)) =
        Except.ok result
      split
      · exact evalExpr_calm rhs memory₁
      · exact ⟨_, rfl⟩
  | .unary op operand, memory => by
      obtain ⟨⟨word, memory₁⟩, hword⟩ := evalExpr_calm operand memory
      refine ⟨(op.apply word, memory₁), ?_⟩
      rw [evalExpr, hword]
      rfl

/-- Calls have a value in a calm world. -/
theorem evalCall_calm : ∀ (call : Call) (memory : Memory),
    ∃ result, evalCall world.calm call memory = .ok result
  | .mk name args isCallout, memory => by
      obtain ⟨⟨words, memory₁⟩, hwords⟩ := evalArgs_calm args memory
      rw [evalCall, hwords]
      exact callOut_calm world memory₁ name words

/-- Arguments have values in a calm world. -/
theorem evalArgs_calm : ∀ (args : List Arg) (memory : Memory),
    ∃ result, evalArgs world.calm args memory = .ok result
  | [], memory => ⟨_, by rw [evalArgs]⟩
  | .text value :: rest, memory => by
      obtain ⟨⟨words, memory₁⟩, hwords⟩ := evalArgs_calm rest memory
      rw [evalArgs, hwords]
      exact ⟨_, rfl⟩
  | .expr value :: rest, memory => by
      obtain ⟨⟨word, memory₁⟩, hword⟩ := evalExpr_calm value memory
      obtain ⟨⟨words, memory₂⟩, hwords⟩ := evalArgs_calm rest memory₁
      rw [evalArgs, hword]
      show ∃ result, (evalArgs world.calm rest memory₁ >>= fun _ => _) = Except.ok result
      rw [hwords]
      exact ⟨_, rfl⟩

end

/-- If the run has ended, then by a return. -/
def Completion.Returns : Completion → Prop
  | .ended ending => ∃ value, ending.outcome = .returned value
  | .next _ | .leftLoop _ | .nextRound _ | .unfinished _ => True

/-- To drop locals leaves the way a block ends. -/
theorem Completion.Returns.drop {completion : Completion} (h : completion.Returns) (count : Nat) :
    (completion.drop count).Returns := by
  cases completion with
  | ended => exact h
  | next | leftLoop | nextRound | unfinished => trivial

/-- A loop returns if its rounds do, and if its tests have a value. -/
theorem returns_loop {test : Memory → Except Ending (Word × Memory)} {body : Memory → Completion}
    {after : Memory → Except Ending Memory} (htest : ∀ memory, ∃ result, test memory = .ok result)
    (hbody : ∀ memory, (body memory).Returns)
    (hafter : ∀ memory, ∃ result, after memory = .ok result) (rounds : Nat) (memory : Memory) :
    (loop test body after rounds memory).Returns := by
  induction rounds generalizing memory with
  | zero => trivial
  | succ rounds ih =>
      obtain ⟨⟨word, memory₁⟩, hword⟩ := htest memory
      have hround := hbody memory₁
      rw [loop, hword]
      dsimp only
      split
      · trivial
      · cases hresult : body memory₁ with
        | next memory₂ | nextRound memory₂ =>
            obtain ⟨memory₃, hmemory⟩ := hafter memory₂
            dsimp only
            rw [hmemory]
            exact ih memory₃
        | leftLoop => trivial
        | unfinished => trivial
        | ended ending =>
            rw [hresult] at hround
            exact hround

mutual

/-- Statements end only by returning in a calm world. -/
theorem returns_execStmt (rounds : Nat) (inLoop : Bool) : ∀ (stmt : Stmt) (memory : Memory),
    (execStmt world.calm rounds inLoop stmt memory).Returns
  | .assign target op value, memory => by
      obtain ⟨⟨word, memory₁⟩, hword⟩ := evalExpr_calm world value memory
      -- the value of the target takes part in an update, and that is read without fail
      have hassigned : ∃ result, assigned world.calm memory₁ target word op = .ok result := by
        cases op with
        | assign => exact ⟨_, rfl⟩
        | addAssign => exact operate_calm world memory₁ .add (memory₁.get target) word
        | subAssign => exact operate_calm world memory₁ .sub (memory₁.get target) word
      obtain ⟨result, hresult⟩ := hassigned
      rw [execStmt, hword]
      dsimp only
      rw [hresult]
      trivial
  | .call call, memory => by
      obtain ⟨⟨word, memory₁⟩, hword⟩ := evalCall_calm world call memory
      rw [execStmt, hword]
      trivial
  | .cond cond thenBlock none, memory => by
      obtain ⟨⟨word, memory₁⟩, hword⟩ := evalExpr_calm world cond memory
      rw [execStmt, hword]
      dsimp only
      split
      · trivial
      · exact returns_execBlock rounds inLoop thenBlock memory₁
  | .cond cond thenBlock (some elseBlock), memory => by
      obtain ⟨⟨word, memory₁⟩, hword⟩ := evalExpr_calm world cond memory
      rw [execStmt, hword]
      dsimp only
      split
      · exact returns_execBlock rounds inLoop elseBlock memory₁
      · exact returns_execBlock rounds inLoop thenBlock memory₁
  | .whileLoop cond body, memory => by
      rw [execStmt]
      exact returns_loop (evalExpr_calm world cond) (returns_execBlock rounds true body)
        (fun memory => ⟨memory, rfl⟩) rounds memory
  | .forLoop var start bound body, memory => by
      obtain ⟨⟨first, memory₁⟩, hfirst⟩ := evalExpr_calm world start memory
      obtain ⟨⟨limit, memory₂⟩, hlimit⟩ := evalExpr_calm world bound (memory₁.set var first)
      rw [execStmt, hfirst]
      dsimp only
      rw [hlimit]
      exact returns_loop (fun _ => ⟨_, rfl⟩) (returns_execBlock rounds true body)
        (fun _ => ⟨_, rfl⟩) rounds memory₂
  | .ret none, memory => by
      rw [execStmt]
      exact ⟨none, rfl⟩
  | .ret (some value), memory => by
      obtain ⟨⟨word, memory₁⟩, hword⟩ := evalExpr_calm world value memory
      rw [execStmt, hword]
      exact ⟨some word, rfl⟩
  | .breakLoop, memory => by
      rw [execStmt]
      cases inLoop <;> trivial
  | .continueLoop, memory => by
      rw [execStmt]
      cases inLoop <;> trivial
  | .block block, memory => by
      rw [execStmt]
      exact returns_execBlock rounds inLoop block memory

/-- Blocks end only by returning in a calm world. -/
theorem returns_execBlock (rounds : Nat) (inLoop : Bool) :
    ∀ (block : Source.Block) (memory : Memory),
    (execBlock world.calm rounds inLoop block memory).Returns
  | .mk locals stmts, memory => by
      rw [execBlock]
      exact (returns_execStmts rounds inLoop stmts _).drop locals.length

/-- Statements in a row end only by returning in a calm world. -/
theorem returns_execStmts (rounds : Nat) (inLoop : Bool) : ∀ (stmts : List Stmt) (memory : Memory),
    (execStmts world.calm rounds inLoop stmts memory).Returns
  | [], memory => by
      rw [execStmts]
      trivial
  | stmt :: rest, memory => by
      have hstmt := returns_execStmt rounds inLoop stmt memory
      rw [execStmts]
      cases hresult : execStmt world.calm rounds inLoop stmt memory with
      | next memory₁ => exact returns_execStmts rounds inLoop rest memory₁
      | leftLoop => trivial
      | nextRound => trivial
      | unfinished => trivial
      | ended ending =>
          rw [hresult] at hstmt
          exact hstmt

end

/-- A method does not fail in a calm world. -/
theorem Method.unfailing_calm (method : Method) (args : Nat → Word) (globals : Globals) :
    (method.behaviour world.calm args globals).Unfailing := by
  rintro ending ⟨rounds, hending⟩
  have hreturns := returns_execBlock world rounds false method.body
    ⟨bindParams args 0 method.params [], globals, []⟩
  -- a method that has to return a value stops for its own reason at its end
  have hatEnd : method.atEnd ≠ .stuck ∧ method.atEnd ≠ .aborted .trap := by
    rw [Method.atEnd]
    cases method.returnsValue with
    | true => exact ⟨Outcome.noConfusion, fun h => by cases h⟩
    | false => exact ⟨Outcome.noConfusion, Outcome.noConfusion⟩
  rw [Method.behaviour] at hending
  cases hresult : execBlock world.calm rounds false method.body
      ⟨bindParams args 0 method.params [], globals, []⟩ with
  | next memory =>
      rw [hresult] at hending
      cases hending
      exact hatEnd
  | leftLoop memory =>
      rw [hresult] at hending
      cases hending
      exact hatEnd
  | nextRound memory =>
      rw [hresult] at hending
      cases hending
      exact hatEnd
  | unfinished calls =>
      rw [hresult] at hending
      cases hending
  | ended last =>
      rw [hresult] at hending hreturns
      cases hending
      obtain ⟨value, hvalue⟩ := hreturns
      rw [hvalue]
      exact ⟨Outcome.noConfusion, Outcome.noConfusion⟩

end

end Source

namespace Lowering

open Source

/-- **BODIES OF METHODS DO NOT FAIL** in calm settings. -/
theorem lowerMethod_unfailing (symbols : SymbolPool) (method : Method) (world : World)
    (args : Nat → Word) (globals : Globals) {later : SymbolPool}
    (hsymbols : ∀ {symbol text}, (lowerMethod symbols method).2.text? symbol = some text →
      later.text? symbol = some text) :
    ((lowerMethod symbols method).1.behaviour (settingOf world later args).calm
      { locals := fun _ => none, globals }).Unfailing := by
  refine (method.unfailing_calm world args globals).of_same ?_
  rw [(finished_eq symbols method).2] at hsymbols
  exact finished_same_behaviour symbols method world.calm args globals hsymbols

end Lowering

end DecafBackend
