import DecafBackend.Proofs.LoweringStatements

/-! # Lowering keeps the meaning of methods

    The body that lowering builds behaves like the method of the tree, for
    every environment that answers its calls, all arguments and all contents of
    the fields.  Since the variables of the body start out undefined, this says
    too that the body reads no variable before it is written.

    * `runs_declareParams` — the parameters get their arguments
    * `lowerMethod_same_behaviour` — methods -/

namespace DecafBackend.Lowering

open Source

section

variable {world : World} {args : Nat → Word} {final : State}

/-! ## Parameters -/

/-- A parameter is a local variable and more. -/
theorem localVar_extends_param {state : State} {name : Symbol} (htidy : state.builder.Tidy) :
    (build (·.localVar name) state).2.Extends (build (·.param name) state).2 := by
  have h₁ := Builder.extends_localVar htidy name
  have h₂ := Builder.extends_create h₁.tidy
    (.param (state.builder.localVar name).2.body.params.length)
  have h₃ := Builder.extends_noteParam h₂.tidy (state.builder.localVar name).1
  exact ⟨(h₂.trans h₃).trans (Builder.extends_append h₃.tidy _), id⟩

/-- A parameter is counted. -/
theorem params_param (state : State) (name : Symbol) :
    (build (·.param name) state).2.builder.body.params.length =
      state.builder.body.params.length + 1 := by
  have hplace : ∀ (builder : Builder) (inst : Inst) (ends : Bool),
      (builder.place inst ends).body.params = builder.body.params := by
    intro builder inst ends
    cases hcur : builder.current with
    | some block => simp only [Builder.place, hcur, Body.push]
    | none => simp only [Builder.place, hcur, Body.push, Body.newBlock]
  show (Builder.place _ _ _).body.params.length = _
  rw [hplace]
  exact List.length_append

/-- A parameter gets its argument. -/
theorem runs_param {state : State} {name : Symbol} (store : Store) (calls : List CallEvent)
    (htidy : state.builder.Tidy) (hlater : Later (build (·.param name) state).2 final) :
    Runs world args final 0 ⟨state, store, calls⟩
      ⟨(build (·.param name) state).2, store.setLocal (build (·.localVar name) state).1
        (args state.builder.body.params.length), calls⟩ := by
  let s₁ := build (·.localVar name) state
  let s₂ := build (·.create (.param s₁.2.builder.body.params.length)) s₁.2
  let s₃ : State := { s₂.2 with builder := s₂.2.builder.noteParam s₁.1 }
  have e₁ : State.Extends state s₁.2 :=
    extending_build (fun _ h => Builder.extends_localVar h name) state htidy
  have e₂ : State.Extends s₁.2 s₂.2 :=
    extending_build (fun _ h => Builder.extends_create h _) s₁.2 e₁.tidy
  have e₃ : State.Extends s₂.2 s₃ := ⟨Builder.extends_noteParam e₂.tidy s₁.1, id⟩
  have e₄ : State.Extends s₃ (emit (·.save s₂.1 s₁.1) s₃).2 :=
    extending_save s₂.1 s₁.1 s₃ e₃.tidy
  have l₃ : Later s₃ final := Later.of_extends e₄ hlater
  have l₂ : Later s₂.2 final := Later.of_extends e₃ l₃
  have hloc := location_localVar (Later.of_extends e₂ l₂).grows
  have hvalue : final.builder.body.evaluateAt (settingOf world final.symbols args) store calls
      s₂.1 = .ok ⟨args state.builder.body.params.length, store, calls⟩ := by
    rw [Body.evaluateAt, show final.builder.body.records[s₂.1.index]? =
      some (.param s₁.2.builder.body.params.length) from records_create l₂.grows]
    rfl
  have hquiet : Runs world args final 0 ⟨state, store, calls⟩ ⟨s₃, store, calls⟩ :=
    runs_of_quiet rfl rfl store calls
  have hsave : Runs world args final 1 ⟨s₃, store, calls⟩
      ⟨(emit (·.save s₂.1 s₁.1) s₃).2, _, calls⟩ :=
    runs_save e₃.tidy hlater hvalue (written_of_local hloc store _)
  exact (hquiet.trans hsave).mono (Nat.zero_le _)

/-- Parameters only add to the body. -/
theorem extending_declareParams : ∀ (names : List String) (vars : List (String × Loc)),
    Extending (declareParams names vars)
  | [], vars => extending_pure vars
  | name :: rest, vars => by
      rw [declareParams]
      exact (extending_intern name).bind fun symbol =>
        (extending_build fun _ htidy => Builder.extends_param htidy symbol).bind fun loc =>
          extending_declareParams rest ((name, loc) :: vars)

/-- The parameters come into scope with their arguments. -/
theorem runs_declareParams : ∀ (names : List String) (vars : List (String × Loc)) {state : State}
    {memory : Memory} {store : Store}, state.builder.Tidy → Fits state vars →
    Later (declareParams names vars state).2 final → Represents vars memory store →
    let opened := declareParams names vars state
    ∃ store', Runs world args final 0 ⟨state, store, memory.calls⟩
        ⟨opened.2, store', memory.calls⟩ ∧
      Represents opened.1
        { memory with
          vars := bindParams args state.builder.body.params.length names memory.vars } store' ∧
      Fits opened.2 opened.1
  | [], vars, state, memory, store, htidy, hfits, hlater, hrep =>
      ⟨store, Runs.refl _, hrep, hfits⟩
  | name :: rest, vars, state, memory, store, htidy, hfits, hlater, hrep => by
      let s₁ := intern name state
      let s₂ := build (·.param s₁.1) s₁.2
      have e₁ : State.Extends state s₁.2 := extending_intern name state htidy
      have e₂ : State.Extends s₁.2 s₂.2 :=
        extending_build (fun _ h => Builder.extends_param h s₁.1) s₁.2 e₁.tidy
      have l₂ : Later s₂.2 final :=
        Later.of_extends (extending_declareParams rest _ s₂.2 e₂.tidy) hlater
      have hfits₁ := hfits.mono e₁
      have hparam : Runs world args final 0 ⟨state, store, memory.calls⟩
          ⟨s₂.2, _, memory.calls⟩ :=
        (runs_of_quiet rfl rfl store memory.calls :
          Runs world args final 0 _ ⟨s₁.2, _, _⟩).trans
          (runs_param store memory.calls e₁.tidy l₂)
      obtain ⟨store', hruns, hrep', hfits'⟩ :=
        runs_declareParams rest ((name, s₂.1) :: vars) e₂.tidy
          (hfits₁.cons (localVar_extends_param e₁.tidy) e₁.tidy) hlater
          (hrep.cons hfits₁ name s₁.1 (args state.builder.body.params.length))
      refine ⟨store', hparam.trans hruns, ?_, hfits'⟩
      have hposition : s₂.2.builder.body.params.length = state.builder.body.params.length + 1 :=
        params_param s₁.2 s₁.1
      rw [hposition] at hrep'
      exact hrep'

/-! ## The end of a method -/

/-- A body that ends in a statement is finished as it is. -/
theorem finish_eq {builder : Builder} {inst : Inst} (h : builder.body.lastStmt? = some inst) :
    builder.finish = builder.body := by
  rw [Builder.finish, if_neg]
  intro hempty
  have hnone : builder.body.blocks.back? = none := by
    rw [Array.isEmpty_iff] at hempty
    rw [hempty]
    rfl
  rw [Body.lastStmt?, hnone] at h
  cases h

/-- Control never comes to the end of code whose last statement turns it
    away. -/
theorem not_cursor_of_isTerminated {builder : Builder} (h : builder.isTerminated = true)
    (block : Block) (rest : List Inst) : ¬ Cursor builder.body builder block rest := by
  intro hcursor
  rw [Builder.isTerminated, Bool.and_eq_true, Option.isNone_iff_eq_none] at h
  rw [Cursor, h.1] at hcursor
  cases hlast : builder.body.lastStmt? with
  | none =>
      rw [hlast] at h
      exact Bool.noConfusion h.2
  | some inst =>
      rw [hlast, Option.bind_some] at h
      cases hrecord : builder.body.records[inst.index]? with
      | none =>
          rw [hrecord] at h
          exact Bool.noConfusion h.2
      | some record =>
          rw [hrecord] at h
          have hfalls := hcursor.1 inst record hlast hrecord
          exact Bool.noConfusion (hfalls.symm.trans h.2)

/-- What lowering adds at the end of a method. -/
def lowerEnd (method : Method) : Lower Unit := do
  if !(← get).builder.isTerminated then
    if method.returnsValue then emit (·.exit missingReturnCode) else emit (·.ret none)

/-- The end of a method is appended where control comes to it. -/
theorem lowerEnd_apply (method : Method) (state : State) :
    lowerEnd method state =
      if state.builder.isTerminated then ((), state)
      else emit (·.append (if method.returnsValue then .exit missingReturnCode else .ret none))
        state := by
  show (if !state.builder.isTerminated then
    if method.returnsValue then emit (·.exit missingReturnCode) else emit (·.ret none)
    else pure ()) state = _
  cases state.builder.isTerminated with
  | true => rfl
  | false =>
      cases method.returnsValue with
      | true => rfl
      | false => rfl

/-- The end of a method only adds to the body. -/
theorem extending_lowerEnd (method : Method) : Extending (lowerEnd method) := by
  intro state htidy
  rw [lowerEnd_apply]
  cases state.builder.isTerminated with
  | true => exact State.Extends.refl htidy
  | false => exact extending_emit (fun _ h => Builder.extends_append h _) state htidy

/-- The end of a method is the end of the finished body. -/
theorem finish_lowerEnd (method : Method) {state : State} (htidy : state.builder.Tidy) :
    (lowerEnd method state).2.builder.finish = (lowerEnd method state).2.builder.body := by
  rw [lowerEnd_apply]
  cases hterminated : state.builder.isTerminated with
  | false => exact finish_eq (Builder.place_lastStmt? (Builder.atEnd_create htidy.atEnd _) _ _)
  | true =>
      cases hlast : state.builder.body.lastStmt? with
      | some inst => exact finish_eq hlast
      | none =>
          rw [Builder.isTerminated, hlast, Bool.and_eq_true] at hterminated
          exact Bool.noConfusion hterminated.2

/-- Control that comes to the end of a method returns, or ends the process if
    a value was due. -/
theorem ends_lowerEnd (world : World) (args : Nat → Word) (method : Method) {state : State}
    {memory : Memory} {store : Store} {final : State} (htidy : state.builder.Tidy)
    (hglobals : store.globals = memory.globals)
    (hfinal : final.builder = (lowerEnd method state).2.builder) :
    Ends world args final ⟨state, store, memory.calls⟩ (memory.stop method.atEnd) := by
  intro block rest hcursor
  have happly := lowerEnd_apply method state
  -- either control does not come to the end, or the return is appended there
  cases hterminated : state.builder.isTerminated with
  | true =>
      rw [hterminated, if_pos rfl] at happly
      rw [hfinal, happly] at hcursor
      exact absurd hcursor (not_cursor_of_isTerminated hterminated block rest)
  | false =>
      rw [hterminated, if_neg Bool.false_ne_true] at happly
      have hgrows : (state.builder.append
          (if method.returnsValue then .exit missingReturnCode else .ret none)).2.Grows
          final.builder := by
        rw [hfinal, happly]
        exact Builder.Grows.refl _
      obtain ⟨n, block', rest', hrun, -⟩ :=
        run_appended world args store memory.calls htidy hgrows hcursor
      refine ⟨n + 1, ?_⟩
      rw [hrun, Memory.stop, ← hglobals, Method.atEnd]
      cases method.returnsValue with
      | true => rfl
      | false => rfl

end

/-! ## Methods -/

/-- The state in which the lowering of a method starts. -/
def initial (symbols : SymbolPool) (method : Method) : State where
  symbols := (symbols.intern method.name).2
  builder := { body := { name := (symbols.intern method.name).1 } }

/-- Lowering starts with a tidy builder. -/
theorem tidy_initial (symbols : SymbolPool) (method : Method) :
    (initial symbols method).builder.Tidy := by
  refine ⟨?_, ?_⟩
  · intro block h
    cases h
  · intro block h
    cases h

/-- The state in which the lowering of a method ends. -/
def finished (symbols : SymbolPool) (method : Method) : State :=
  let declared := declareParams method.params [] (initial symbols method)
  (lowerEnd method (lowerBlock { vars := declared.1 } method.body declared.2).2).2

/-- What the run of a body has to come to, if the tree comes to something with
    a bound on rounds. -/
def Answers (world : World) (args : Nat → Word) (final : State) (rounds : Nat) (p : Point)
    (method : Method) : Completion → Prop
  | .next memory => Ends world args final p (memory.stop method.atEnd)
  | .leftLoop _ | .nextRound _ => False
  | .ended ending => Ends world args final p ending
  | .unfinished calls => Lasts world args final rounds p calls

section

variable (symbols : SymbolPool) (method : Method) (world : World) (args : Nat → Word)
  (globals : Globals)

/-- The state in which the lowering of a method ends, with the symbols of a later
    time. -/
def finishedLater (later : SymbolPool) : State := { finished symbols method with symbols := later }

/-- A lowered method is what its last state holds. -/
theorem finished_eq : (lowerMethod symbols method).1 = (finished symbols method).builder.body ∧
    (lowerMethod symbols method).2 = (finished symbols method).symbols := by
  let s₁ := declareParams method.params [] (initial symbols method)
  have e₁ : State.Extends (initial symbols method) s₁.2 :=
    extending_declareParams method.params [] _ (tidy_initial symbols method)
  have e₂ : State.Extends s₁.2 (lowerBlock { vars := s₁.1 } method.body s₁.2).2 :=
    extending_lowerBlock _ method.body s₁.2 e₁.tidy
  exact ⟨finish_lowerEnd method e₂.tidy, rfl⟩

variable {later : SymbolPool} (hsymbols : ∀ {symbol text},
  (finished symbols method).symbols.text? symbol = some text → later.text? symbol = some text)

include hsymbols in
/-- What is seen of the tree with some bound on rounds is seen in the run of
    the body, at some time. -/
theorem answers_lowerMethod (rounds : Nat) :
    Answers world args (finishedLater symbols method later) rounds
      ⟨initial symbols method, { locals := fun _ => none, globals }, []⟩ method
      (execBlock world rounds false method.body
        ⟨bindParams args 0 method.params [], globals, []⟩) := by
  let s₀ := initial symbols method
  let s₁ := declareParams method.params [] s₀
  let scope : Scope := { vars := s₁.1 }
  let s₂ := lowerBlock scope method.body s₁.2
  let final := finishedLater symbols method later
  let empty : Store := { locals := fun _ => none, globals }
  let memory : Memory := ⟨bindParams args 0 method.params [], globals, []⟩
  have e₁ : State.Extends s₀ s₁.2 :=
    extending_declareParams method.params [] s₀ (tidy_initial symbols method)
  have e₂ : State.Extends s₁.2 s₂.2 := extending_lowerBlock scope method.body s₁.2 e₁.tidy
  have e₃ : State.Extends s₂.2 (finished symbols method) := extending_lowerEnd method s₂.2 e₂.tidy
  have l₂ : Later s₂.2 final := ⟨e₃.builder.grows, fun htext => hsymbols (e₃.symbols htext)⟩
  have l₁ : Later s₁.2 final := Later.of_extends e₂ l₂
  have hempty : Represents [] ⟨[], globals, []⟩ empty := ⟨.nil, rfl⟩
  have hnone : Fits s₀ [] := by
    refine ⟨List.nodup_nil, ?_⟩
    intro pair hpair
    cases hpair
  obtain ⟨store₁, hruns₁, hrep₁, hfits₁⟩ : ∃ store',
      Runs world args final 0 ⟨s₀, empty, []⟩ ⟨s₁.2, store', []⟩ ∧
        Represents s₁.1 memory store' ∧ Fits s₁.2 s₁.1 :=
    runs_declareParams method.params [] (tidy_initial symbols method) hnone l₁ hempty
  have hcompletes : Completes world args final rounds scope ⟨s₁.2, store₁, []⟩ s₂.2
      (execBlock world rounds false method.body memory) :=
    completes_lowerBlock rounds method.body scope e₁.tidy hfits₁ l₂ hrep₁
  show Answers world args final rounds ⟨s₀, empty, []⟩ method
    (execBlock world rounds false method.body memory)
  cases hresult : execBlock world rounds false method.body memory with
  -- by what the block did: only its end and its results leave the method
  | next memory₁ =>
      rw [hresult] at hcompletes
      obtain ⟨store, hrep, -, hruns⟩ := hcompletes
      exact (hruns₁.trans hruns).ends (ends_lowerEnd world args method e₂.tidy hrep.globals rfl)
  | leftLoop memory₁ =>
      rw [hresult] at hcompletes
      obtain ⟨exits, store, hexits, -⟩ := hcompletes
      cases hexits
  | nextRound memory₁ =>
      rw [hresult] at hcompletes
      obtain ⟨exits, store, hexits, -⟩ := hcompletes
      cases hexits
  | ended ending =>
      rw [hresult] at hcompletes
      exact hruns₁.ends hcompletes
  | unfinished calls =>
      rw [hresult] at hcompletes
      exact Lasts.after hcompletes hruns₁

/-- Control starts where lowering starts. -/
theorem cursor_start : Cursor (finished symbols method).builder.body
    (initial symbols method).builder ⟨0⟩
    ((finished symbols method).builder.body.stmtsOf ⟨0⟩) := by
  refine ⟨?_, Or.inl ⟨rfl, rfl⟩⟩
  intro stmt record h
  cases h

include hsymbols in
/-- A run that came to an end in the rounds given is one of the finished body. -/
theorem matched_finished (rounds : Nat) :
    Behaviour.Matched (runs world args (finishedLater symbols method later))
      ((finished symbols method).builder.body.start { locals := fun _ => none, globals })
      (method.behaviour world args globals rounds) := by
  have h := answers_lowerMethod symbols method world args globals hsymbols rounds
  have hstart := cursor_start symbols method
  rw [Method.behaviour]
  cases hresult : execBlock world rounds false method.body
      ⟨bindParams args 0 method.params [], globals, []⟩ with
  | next memory₁ =>
      rw [hresult] at h
      exact ⟨rfl, h _ _ hstart⟩
  | leftLoop memory₁ =>
      rw [hresult] at h
      exact h.elim
  | nextRound memory₁ =>
      rw [hresult] at h
      exact h.elim
  | ended ending =>
      rw [hresult] at h
      exact ⟨rfl, h _ _ hstart⟩
  | unfinished calls =>
      rw [hresult] at h
      obtain ⟨n, config, -, hrun, hcalls⟩ := h _ _ hstart
      exact ⟨n, config, hrun, hcalls⟩

include hsymbols in
/-- A tree that is not finished after some rounds keeps the body running for as
    many steps. -/
theorem progress_finished (k : Nat) :
    ∃ rounds, (method.behaviour world args globals rounds).ending = none →
      ∃ k' config, k ≤ k' ∧ (runs world args (finishedLater symbols method later)).run k'
          ((finished symbols method).builder.body.start { locals := fun _ => none, globals }) =
            .going config ∧
        config.calls = (method.behaviour world args globals rounds).calls := by
  refine ⟨k, fun hgoing => ?_⟩
  have h := answers_lowerMethod symbols method world args globals hsymbols k
  have hstart := cursor_start symbols method
  rw [Method.behaviour] at hgoing ⊢
  -- a tree that is not finished has used up its rounds, each of which took steps
  cases hresult : execBlock world k false method.body
      ⟨bindParams args 0 method.params [], globals, []⟩ with
  | next memory₁ =>
      rw [hresult] at hgoing
      cases hgoing
  | leftLoop memory₁ =>
      rw [hresult] at h
      exact h.elim
  | nextRound memory₁ =>
      rw [hresult] at h
      exact h.elim
  | ended ending =>
      rw [hresult] at hgoing
      cases hgoing
  | unfinished calls =>
      rw [hresult] at h
      exact h _ _ hstart

include hsymbols in
/-- The body of a method behaves like the method with the symbols of any later
    time. -/
theorem finished_same_behaviour :
    Behaviour.Same (method.behaviour world args globals)
      ((lowerMethod symbols method).1.behaviour (settingOf world later args)
        { locals := fun _ => none, globals }) := by
  rw [(finished_eq symbols method).1]
  exact Behaviour.same_of_forward (matched_finished symbols method world args globals hsymbols)
    (progress_finished symbols method world args globals hsymbols)

/-- **EVERY OBSERVATION OF THE TREE** is one of the lowered body. -/
theorem matched_lowerMethod (rounds : Nat) :
    Behaviour.Matched (runs world args (finished symbols method))
      ((finished symbols method).builder.body.start { locals := fun _ => none, globals })
      (method.behaviour world args globals rounds) :=
  matched_finished symbols method world args globals (fun h => h) rounds

/-- **EVERY NUMBER OF STEPS** of the lowered body is covered by some number of rounds. -/
theorem progress_lowerMethod (k : Nat) :
    ∃ rounds, (method.behaviour world args globals rounds).ending = none →
      ∃ k' config, k ≤ k' ∧ (runs world args (finished symbols method)).run k'
          ((finished symbols method).builder.body.start { locals := fun _ => none, globals }) =
            .going config ∧
        config.calls = (method.behaviour world args globals rounds).calls :=
  progress_finished symbols method world args globals (fun h => h) k

/-- **LOWERING KEEPS THE MEANING**: the body of a method behaves like the
    method. -/
theorem lowerMethod_same_behaviour :
    Behaviour.Same (method.behaviour world args globals)
      ((lowerMethod symbols method).1.behaviour
        (settingOf world (lowerMethod symbols method).2 args)
        { locals := fun _ => none, globals }) := by
  obtain ⟨hbody, hsymbols⟩ := finished_eq symbols method
  rw [hbody, hsymbols]
  exact Behaviour.same_of_forward (matched_lowerMethod symbols method world args globals)
    (progress_lowerMethod symbols method world args globals)

end

end DecafBackend.Lowering
