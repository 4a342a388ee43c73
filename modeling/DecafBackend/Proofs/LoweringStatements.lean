import DecafBackend.Proofs.LoweringExpressions

/-! # Lowered statements

    Lowered statements go where the statements of the tree go: to the
    statement after them, to an exit of the innermost loop, or to the end of
    the run.  A loop that does not end within a bound on its rounds runs for at
    least as many steps, so endless runs of the tree are endless in the body.

    * `Outside` — variables outside of the scope are as they were
    * `Completes` — where control goes after a statement
    * `loops` — the rounds of a loop, by induction on their number
    * `Evaluates.tests`, `Tests.completes` — branches on a value, and what follows them
    * `Completes.round` — the body of a loop as one of its rounds
    * `completes_lowerStmt`, `completes_lowerBlock` — statements and blocks -/

namespace DecafBackend.Lowering

open Source

/-! ## Where control goes -/

/-- The variables of the method below a bound are as they were, unless they
    are in scope. -/
def Outside (vars : List (String × Loc)) (bound : Nat) (early late : Store) : Prop :=
  ∀ loc : Loc, loc.index < bound → loc ∉ vars.map Prod.snd → late.locals loc = early.locals loc

namespace Outside

variable {vars : List (String × Loc)} {m n : Nat} {a b c : Store}

theorem refl (vars : List (String × Loc)) (bound : Nat) (store : Store) :
    Outside vars bound store store := fun _ _ _ => rfl

/-- What is outside of both stays as it is over both. -/
theorem trans (h₁ : Outside vars m a b) (h₂ : Outside vars n b c) (hmn : m ≤ n) :
    Outside vars m a c :=
  fun loc hloc hnot => (h₂ loc (Nat.lt_of_lt_of_le hloc hmn) hnot).trans (h₁ loc hloc hnot)

theorem of_kept (h : Kept m a b) : Outside vars m a b := fun loc hloc _ => h loc hloc

end Outside

section

variable (world : World) (args : Nat → Word) (final : State)

/-- Where control goes from a point, for a statement whose code ends with some
    state. -/
def Completes (rounds : Nat) (scope : Scope) (p : Point) (state : State) : Completion → Prop
  | .next memory => ∃ store, Represents scope.vars memory store ∧
      Outside scope.vars p.state.room p.store store ∧
      Runs world args final 0 p ⟨state, store, memory.calls⟩
  | .leftLoop memory => ∃ exits store, scope.loop = some exits ∧
      Represents scope.vars memory store ∧ Outside scope.vars p.state.room p.store store ∧
      Jumps world args final p exits.done store memory.calls
  | .nextRound memory => ∃ exits store, scope.loop = some exits ∧
      Represents scope.vars memory store ∧ Outside scope.vars p.state.room p.store store ∧
      Jumps world args final p exits.next store memory.calls
  | .ended ending => Ends world args final p ending
  | .unfinished calls => Lasts world args final rounds p calls

end

section

variable {world : World} {args : Nat → Word} {final : State}

/-- Control goes on for as long behind a run without counted steps. -/
theorem Lasts.after {k : Nat} {p q : Point} {calls : List CallEvent}
    (h : Lasts world args final k q calls) (hruns : Runs world args final 0 p q) :
    Lasts world args final k p calls := by
  have h' := hruns.lasts h
  rw [Nat.zero_add] at h'
  exact h'

/-- Steps before a statement. -/
theorem Completes.after {rounds : Nat} {scope : Scope} {p q : Point} {state : State}
    {completion : Completion} (h : Completes world args final rounds scope q state completion)
    (hruns : Runs world args final 0 p q)
    (hout : Outside scope.vars p.state.room p.store q.store) (hroom : p.state.room ≤ q.state.room) :
    Completes world args final rounds scope p state completion := by
  cases completion with
  | next memory =>
      obtain ⟨store, hrep, hout', hruns'⟩ := h
      exact ⟨store, hrep, hout.trans hout' hroom, hruns.trans hruns'⟩
  | leftLoop memory =>
      obtain ⟨exits, store, hexits, hrep, hout', hjumps⟩ := h
      exact ⟨exits, store, hexits, hrep, hout.trans hout' hroom, hruns.jumps hjumps⟩
  | nextRound memory =>
      obtain ⟨exits, store, hexits, hrep, hout', hjumps⟩ := h
      exact ⟨exits, store, hexits, hrep, hout.trans hout' hroom, hruns.jumps hjumps⟩
  | ended ending => exact hruns.ends h
  | unfinished calls => exact Lasts.after h hruns

/-- Steps after a statement, if control falls out of it. -/
theorem Completes.before {rounds : Nat} {scope : Scope} {p : Point} {state state' : State}
    {completion : Completion} (h : Completes world args final rounds scope p state completion)
    (hnext : ∀ store calls,
      Runs world args final 0 ⟨state, store, calls⟩ ⟨state', store, calls⟩) :
    Completes world args final rounds scope p state' completion := by
  cases completion with
  | next memory =>
      obtain ⟨store, hrep, hout, hruns⟩ := h
      exact ⟨store, hrep, hout, hruns.trans (hnext store memory.calls)⟩
  | leftLoop memory => exact h
  | nextRound memory => exact h
  | ended ending => exact h
  | unfinished calls => exact h

/-- Variables go out of scope. -/
theorem Represents.drop {vars : List (String × Loc)} {memory : Memory} {store : Store}
    (h : Represents vars memory store) (count : Nat) :
    Represents (vars.drop count) (memory.drop count) store :=
  ⟨h.vars.drop count, h.globals⟩

/-- Variables that are new to a scope, and those that were in it. -/
structure Opens (outer inner : List (String × Loc)) (bound count : Nat) : Prop where
  drop : inner.drop count = outer
  fresh : ∀ loc ∈ inner.map Prod.snd, loc ∈ outer.map Prod.snd ∨ bound ≤ loc.index

/-- What is outside of a block is outside of the scopes around it. -/
theorem Opens.outside {outer inner : List (String × Loc)} {m n count : Nat} {a b c : Store}
    (h : Opens outer inner m count) (hkept : Kept m a b) (hout : Outside inner n b c)
    (hmn : m ≤ n) : Outside outer m a c := by
  intro loc hloc hnot
  refine (hout loc (Nat.lt_of_lt_of_le hloc hmn) fun hmem => ?_).trans (hkept loc hloc)
  rcases h.fresh loc hmem with hold | hnew
  · exact hnot hold
  · omega

/-- Control leaves the scope of the variables of a block. -/
theorem Completes.leaveScope {rounds : Nat} {scope : Scope} {vars : List (String × Loc)}
    {p q : Point} {state : State} {completion : Completion} {count : Nat}
    (h : Completes world args final rounds { scope with vars } q state completion)
    (hopens : Opens scope.vars vars p.state.room count) (hruns : Runs world args final 0 p q)
    (hkept : Kept p.state.room p.store q.store) (hroom : p.state.room ≤ q.state.room) :
    Completes world args final rounds scope p state (completion.drop count) := by
  have hleave : ∀ {memory : Memory} {store : Store}, Represents vars memory store →
      Represents scope.vars (memory.drop count) store := by
    intro memory store hrep
    rw [← hopens.drop]
    exact hrep.drop count
  cases completion with
  | next memory =>
      obtain ⟨store, hrep, hout, hruns'⟩ := h
      exact ⟨store, hleave hrep, hopens.outside hkept hout hroom, hruns.trans hruns'⟩
  | leftLoop memory =>
      obtain ⟨exits, store, hexits, hrep, hout, hjumps⟩ := h
      exact ⟨exits, store, hexits, hleave hrep, hopens.outside hkept hout hroom,
        hruns.jumps hjumps⟩
  | nextRound memory =>
      obtain ⟨exits, store, hexits, hrep, hout, hjumps⟩ := h
      exact ⟨exits, store, hexits, hleave hrep, hopens.outside hkept hout hroom,
        hruns.jumps hjumps⟩
  | ended ending => exact hruns.ends h
  | unfinished calls => exact Lasts.after h hruns

/-! ## Variables of blocks -/

/-- A local variable appends nothing. -/
theorem silent_localVar (name : Symbol) : Silent (build (·.localVar name)) := fun _ => ⟨rfl, rfl⟩

/-- A local variable of the finished body. -/
theorem location_localVar {state : State} {name : Symbol}
    (hgrows : (build (·.localVar name) state).2.builder.Grows final.builder) :
    final.builder.body.locations[(build (·.localVar name) state).1.index]? =
      some (.localVar name) := by
  refine hgrows.locations ?_
  show (state.builder.body.locations.push _)[state.builder.body.locations.size]? = _
  rw [Array.getElem?_push, if_pos rfl]

/-- A fresh variable comes into scope. -/
theorem Fits.cons {state late : State} {vars : List (String × Loc)} {name : String}
    {symbol : Symbol} (hfits : Fits state vars)
    (hextends : (build (·.localVar symbol) state).2.Extends late) (htidy : state.builder.Tidy) :
    Fits late ((name, (build (·.localVar symbol) state).1) :: vars) where
  distinct := by
    rw [List.map_cons, List.nodup_cons]
    refine ⟨fun hmem => ?_, hfits.distinct⟩
    exact Nat.lt_irrefl _ (hfits.lt hmem)
  isLocal loc hloc := by
    rw [List.map_cons, List.mem_cons] at hloc
    rcases hloc with rfl | hloc
    · exact ⟨symbol, location_localVar hextends.builder.grows⟩
    · have hlocal : state.Extends (build (·.localVar symbol) state).2 :=
        extending_build (fun _ h => Builder.extends_localVar h symbol) state htidy
      exact (hfits.mono (hlocal.trans hextends)).isLocal loc hloc

/-- A fresh variable that gets a value represents a new variable of the tree. -/
theorem Represents.cons {state : State} {vars : List (String × Loc)} {memory : Memory}
    {store : Store} (h : Represents vars memory store) (hfits : Fits state vars) (name : String)
    (symbol : Symbol) (word : Word) :
    Represents ((name, (build (·.localVar symbol) state).1) :: vars)
      { memory with vars := (name, word) :: memory.vars }
      (store.setLocal (build (·.localVar symbol) state).1 word) := by
  refine ⟨.cons (Store.setLocal_locals_same _ _ _) (h.vars.congr fun loc hloc => ?_), h.globals⟩
  refine Store.setLocal_locals_other ?_ _ _
  rintro rfl
  exact Nat.lt_irrefl _ (hfits.lt hloc)

/-- The variables of a block come into scope, each zero. -/
theorem runs_declare {zero : Loc}
    (hzero : ∀ store, contents world args final store zero = some 0) :
    ∀ (names : List String) (vars : List (String × Loc)) {state : State} {memory : Memory}
      {store : Store}, state.builder.Tidy → Fits state vars →
      Later (declare zero names vars state).2 final → Represents vars memory store →
      let opened := declare zero names vars state
      ∃ store', Runs world args final 0 ⟨state, store, memory.calls⟩
          ⟨opened.2, store', memory.calls⟩ ∧
        Represents opened.1 (memory.declare names) store' ∧ Fits opened.2 opened.1 ∧
        Kept state.room store store' ∧ Opens vars opened.1 state.room names.length
  | [], vars, state, memory, store, htidy, hfits, hlater, hrep =>
      ⟨store, Runs.refl _, hrep, hfits, Kept.refl _ _, rfl, fun _ h => Or.inl h⟩
  | name :: rest, vars, state, memory, store, htidy, hfits, hlater, hrep => by
      let s₁ := intern name state
      let s₂ := build (·.localVar s₁.1) s₁.2
      let s₃ := emit (·.copy zero s₂.1) s₂.2
      have e₁ : State.Extends state s₁.2 := extending_intern name state htidy
      have e₂ : State.Extends s₁.2 s₂.2 :=
        extending_build (fun _ h => Builder.extends_localVar h _) s₁.2 e₁.tidy
      have e₃ : State.Extends s₂.2 s₃.2 := extending_copy zero s₂.1 s₂.2 e₂.tidy
      have l₃ : Later s₃.2 final :=
        Later.of_extends (extending_declare zero rest _ s₃.2 e₃.tidy) hlater
      have hlocal := location_localVar (Later.of_extends e₃ l₃).grows
      have hcopied : Runs world args final 0 ⟨state, store, memory.calls⟩
          ⟨s₃.2, store.setLocal s₂.1 0, memory.calls⟩ :=
        ((runs_of_quiet rfl rfl store memory.calls :
          Runs world args final 0 _ ⟨s₁.2, _, _⟩).trans
          (runs_silent (silent_localVar s₁.1) s₁.2 store _)).trans
          ((runs_copy e₂.tidy l₃ (hzero store) (written_of_local hlocal _ _)).mono (Nat.zero_le 1))
      have hfits₁ := hfits.mono e₁
      obtain ⟨store', hruns, hrep', hfits', hkept, hdrop, hfresh⟩ :=
        runs_declare hzero rest ((name, s₂.1) :: vars) e₃.tidy (hfits₁.cons e₃ e₁.tidy) hlater
          (hrep.cons hfits₁ name s₁.1 0)
      refine ⟨store', hcopied.trans hruns, hrep', hfits', ?_, ?_, ?_⟩
      · exact ((Kept.refl _ store).setLocal (Nat.le_refl _) 0).trans hkept
          (e₁.trans (e₂.trans e₃)).room
      · show List.drop (rest.length + 1) _ = vars
        rw [List.drop_add_one_eq_tail_drop]
        exact congrArg List.tail hdrop
      · intro loc hloc
        rcases hfresh loc hloc with hold | hnew
        · rw [List.map_cons, List.mem_cons] at hold
          rcases hold with rfl | hold
          · exact Or.inr (Nat.le_refl _)
          · exact Or.inl hold
        · exact Or.inr (Nat.le_trans (e₁.trans (e₂.trans e₃)).room hnew)

/-! ## Loops -/

section

variable (world args final)

/-- Where the test of a loop leads: behind the loop if it is zero, and to the
    body of the loop otherwise. -/
def Tests (good : Memory → Store → Prop) (p : Point) (body done : State) :
    Except Ending (Word × Memory) → Prop
  | .error ending => Ends world args final p ending
  | .ok (word, memory) => ∃ store, good memory store ∧
      Runs world args final 1 p ⟨if word = 0 then done else body, store, memory.calls⟩

/-- Where the body of a loop leads, with the step after it. -/
def Rounds (good : Memory → Store → Prop) (rounds : Nat) (p : Point) (top done : State)
    (after : Memory → Except Ending Memory) : Completion → Prop
  | .next memory | .nextRound memory =>
    match after memory with
    | .error ending => Ends world args final p ending
    | .ok memory => ∃ store, good memory store ∧
        Runs world args final 0 p ⟨top, store, memory.calls⟩
  | .leftLoop memory => ∃ store, good memory store ∧
      Runs world args final 0 p ⟨done, store, memory.calls⟩
  | .ended ending => Ends world args final p ending
  | .unfinished calls => Lasts world args final rounds p calls

/-- Where a loop leads. -/
def Loops (good : Memory → Store → Prop) (rounds : Nat) (p : Point) (done : State) :
    Completion → Prop
  | .next memory => ∃ store, good memory store ∧
      Runs world args final 0 p ⟨done, store, memory.calls⟩
  | .ended ending => Ends world args final p ending
  | .unfinished calls => Lasts world args final rounds p calls
  | _ => False

end

/-- Steps before a loop count like rounds. -/
theorem Loops.after {good : Memory → Store → Prop} {steps rounds : Nat} {p q : Point}
    {done : State} {completion : Completion}
    (h : Loops world args final good rounds q done completion)
    (hruns : Runs world args final steps p q) :
    Loops world args final good (steps + rounds) p done completion := by
  cases completion with
  | next memory =>
      obtain ⟨store, hgood, hruns'⟩ := h
      exact ⟨store, hgood, (hruns.trans hruns').mono (Nat.zero_le _)⟩
  | leftLoop memory => exact h
  | nextRound memory => exact h
  | ended ending => exact hruns.ends h
  | unfinished calls => exact hruns.lasts h

/-- A round, and the rounds after it. -/
theorem Rounds.loops {good : Memory → Store → Prop} {rounds count : Nat} {p : Point}
    {top done : State} {after : Memory → Except Ending Memory} {rest : Memory → Completion}
    (hcount : count ≤ rounds)
    (hrest : ∀ memory store, good memory store →
      Loops world args final good count ⟨top, store, memory.calls⟩ done (rest memory)) :
    ∀ completion, Rounds world args final good rounds p top done after completion →
      Loops world args final good count p done
        (match completion with
          | .next memory | .nextRound memory =>
            match after memory with
            | .error ending => .ended ending
            | .ok memory => rest memory
          | .leftLoop memory => .next memory
          | .ended ending => .ended ending
          | .unfinished calls => .unfinished calls) := by
  have hagain : ∀ memory, Rounds world args final good rounds p top done after (.next memory) →
      Loops world args final good count p done
        (match after memory with
          | .error ending => .ended ending
          | .ok memory => rest memory) := by
    intro memory hafter
    rw [Rounds] at hafter
    cases hresult : after memory with
    | error ending =>
        rw [hresult] at hafter
        exact hafter
    | ok memory' =>
        rw [hresult] at hafter
        obtain ⟨store, hgood, hruns⟩ := hafter
        have hloop := (hrest memory' store hgood).after hruns
        rw [Nat.zero_add] at hloop
        exact hloop
  intro completion h
  cases completion with
  | next memory => exact hagain memory h
  | nextRound memory => exact hagain memory h
  | leftLoop memory => exact h
  | ended ending => exact h
  | unfinished calls => exact Lasts.mono hcount h

/-- **LOOPS**: a loop whose test and body lead where they should leads where
    it should, and it takes a step or more for every round. -/
theorem loops {good : Memory → Store → Prop} {rounds : Nat} {top body done : State}
    {test : Memory → Except Ending (Word × Memory)} {run : Memory → Completion}
    {after : Memory → Except Ending Memory}
    (htest : ∀ memory store, good memory store →
      Tests world args final good ⟨top, store, memory.calls⟩ body done (test memory))
    (hround : ∀ memory store, good memory store →
      Rounds world args final good rounds ⟨body, store, memory.calls⟩ top done after (run memory)) :
    ∀ (count : Nat), count ≤ rounds → ∀ (memory : Memory) (store : Store), good memory store →
      Loops world args final good count ⟨top, store, memory.calls⟩ done
        (loop test run after count memory) := by
  intro count
  induction count with
  | zero =>
      intro _ memory store _ block rest _
      exact ⟨0, _, Nat.le_refl 0, rfl, rfl⟩
  | succ count ih =>
      intro hcount memory store hgood
      have htested := htest memory store hgood
      rw [loop]
      cases hresult : test memory with
      | error ending =>
          rw [hresult] at htested
          exact htested
      | ok value =>
          obtain ⟨word, memory₁⟩ := value
          rw [hresult] at htested
          obtain ⟨store₁, hgood₁, hruns₁⟩ := htested
          dsimp only
          by_cases hword : word = 0
          · rw [if_pos hword] at hruns₁ ⊢
            exact ⟨store₁, hgood₁, hruns₁.mono (Nat.zero_le 1)⟩
          · -- the step of the test pays for the round
            rw [if_neg hword] at hruns₁ ⊢
            have hless : count ≤ rounds := Nat.le_of_succ_le hcount
            have hrest :=
              (Rounds.loops hless (ih hless) _ (hround memory₁ store₁ hgood₁)).after hruns₁
            rw [Nat.add_comm] at hrest
            exact hrest

/-! ## Simple statements -/

/-- Control goes on with the next statement after a variable was written. -/
theorem completes_written {rounds : Nat} {scope : Scope} {name : String} {start late : State}
    {p : Point} {memory : Memory} {store : Store} {word : Word} (htidy : start.builder.Tidy)
    (hfits : Fits start scope.vars) (hlater : Later (resolve scope name start).2 final)
    (hrep : Represents scope.vars memory store)
    (hout : Outside scope.vars p.state.room p.store store)
    (hruns : ∀ store', written world args final store (resolve scope name start).1 word =
      some store' → Runs world args final 0 p ⟨late, store', memory.calls⟩) :
    Completes world args final rounds scope p late (.next (memory.set name word)) := by
  obtain ⟨store', hwrite, hrep', hsame⟩ :=
    written_resolve world args htidy hfits hlater hrep word
  have hcalls : (memory.set name word).calls = memory.calls := by
    rw [Memory.set]
    split <;> rfl
  refine ⟨store', hrep', fun loc hloc hnot => (hsame loc hnot).trans (hout loc hloc hnot), ?_⟩
  rw [hcalls]
  exact hruns store' hwrite

/-- **AN ASSIGNMENT** evaluates its value straight into the target. -/
theorem completes_assign {rounds : Nat} {scope : Scope} {target : String} {value : Expr}
    {inLoop : Bool} {state : State} {memory : Memory} {store : Store}
    (htidy : state.builder.Tidy) (hfits : Fits state scope.vars)
    (hlater : Later (lowerStmt scope (.assign target .assign value) state).2 final)
    (hrep : Represents scope.vars memory store) :
    Completes world args final rounds scope ⟨state, store, memory.calls⟩
      (lowerStmt scope (.assign target .assign value) state).2
      (execStmt world rounds inLoop (.assign target .assign value) memory) := by
  rw [lowerStmt] at hlater ⊢
  rw [execStmt]
  let s₁ := resolve scope target state
  let s₂ := lowerExpr scope value (some s₁.1) s₁.2
  have e₁ : State.Extends state s₁.2 := extending_resolve scope target state htidy
  have e₂ : State.Extends s₁.2 s₂.2 := extending_lowerExpr scope value (some s₁.1) s₁.2 e₁.tidy
  have hquiet : Runs world args final 0 ⟨state, store, memory.calls⟩
      ⟨s₁.2, store, memory.calls⟩ := runs_silent (silent_resolve scope target) state store _
  have hvalue : Evaluates world args final s₁.2.room ⟨s₁.2, store, memory.calls⟩ (some s₁.1)
      (isName value) s₂ (evalExpr world value memory) :=
    evaluates_lowerExpr scope value (some s₁.1) e₁.tidy (hfits.mono e₁) hlater hrep
  cases hresult : evalExpr world value memory with
  | error ending =>
      rw [hresult] at hvalue
      exact hquiet.ends hvalue
  | ok result =>
      obtain ⟨word, memory₁⟩ := result
      rw [hresult] at hvalue
      obtain ⟨store₁, hkept₁, hglobals₁, harrives⟩ := hvalue
      have hkept : Kept state.room store store₁ := (Kept.refl _ store).trans hkept₁ e₁.room
      exact completes_written htidy hfits (Later.of_extends e₂ hlater)
        (hrep.kept hfits hkept (vars_evalExpr hresult) hglobals₁) (Outside.of_kept hkept)
        fun store' hwrite => hquiet.trans (harrives store' hwrite)

/-- A variable is combined with a value that is at hand. -/
def lowerOperated (op : BinaryOp) (dest right : Loc) : Lower Unit := do
  let result ← build (·.binary op dest right)
  emit (·.save result dest)

/-- The combination of a location with an operand only adds to the body. -/
theorem extending_lowerOperated (op : BinaryOp) (dest right : Loc) :
    Extending (lowerOperated op dest right) :=
  (extending_binary op dest right).bind fun result => extending_save result dest

/-- A variable that is combined with an operand. -/
theorem completes_operated {rounds : Nat} {scope : Scope} {name : String} {op : BinaryOp}
    {start state : State} {right : Loc} {word : Word} {memory : Memory} {store : Store}
    (hstart : start.builder.Tidy) (hfits : Fits start scope.vars)
    (hextends : (resolve scope name start).2.Extends state)
    (hlater : Later (lowerOperated op (resolve scope name start).1 right state).2 final)
    (hrep : Represents scope.vars memory store)
    (hright : contents world args final store right = some word) :
    Completes world args final rounds scope ⟨state, store, memory.calls⟩
      (lowerOperated op (resolve scope name start).1 right state).2
      (match memory.operate world op (memory.get name) word with
        | .error ending => .ended ending
        | .ok word => .next (memory.set name word)) := by
  let dest := (resolve scope name start).1
  let s₁ := build (·.binary op dest right) state
  have e₁ : State.Extends state s₁.2 := extending_binary op dest right state hextends.tidy
  have l₁ : Later s₁.2 final := Later.of_extends (extending_save s₁.1 dest s₁.2 e₁.tidy) hlater
  have l₀ : Later (resolve scope name start).2 final :=
    Later.of_extends (hextends.trans e₁) l₁
  have hvalue := evaluateAt_binary memory.calls l₁ (contents_resolve hstart hfits l₀ hrep) hright
  have hquiet : Runs world args final 0 ⟨state, store, memory.calls⟩
      ⟨s₁.2, store, memory.calls⟩ := runs_silent (silent_binary op dest right) state store _
  rw [Memory.operate]
  cases happly : world.arithmetic.apply op (memory.get name) word with
  | none =>
      rw [happly, computed, hrep.globals] at hvalue
      exact hquiet.ends (ends_save e₁.tidy hlater hvalue)
  | some new =>
      rw [happly] at hvalue
      exact completes_written hstart hfits l₀ hrep (Outside.refl _ _ _) fun store' hwrite =>
        hquiet.trans ((runs_save e₁.tidy hlater hvalue hwrite).mono (Nat.zero_le 1))

/-- An assignment that combines the old value with the new one. -/
theorem completes_update {rounds : Nat} {scope : Scope} {target : String} {value : Expr}
    {op : BinaryOp} {state : State} {memory : Memory} {store : Store}
    (htidy : state.builder.Tidy) (hfits : Fits state scope.vars)
    (hlater : Later ((do
      let dest ← resolve scope target
      let right ← lowerExpr scope value none
      let result ← build (·.binary op dest right)
      emit (·.save result dest) : Lower Unit) state).2 final)
    (hrep : Represents scope.vars memory store) :
    Completes world args final rounds scope ⟨state, store, memory.calls⟩
      ((do
        let dest ← resolve scope target
        let right ← lowerExpr scope value none
        let result ← build (·.binary op dest right)
        emit (·.save result dest) : Lower Unit) state).2
      (match evalExpr world value memory with
        | .error ending => .ended ending
        | .ok (word, memory) =>
          match memory.operate world op (memory.get target) word with
          | .error ending => .ended ending
          | .ok word => .next (memory.set target word)) := by
  let s₁ := resolve scope target state
  let s₂ := lowerExpr scope value none s₁.2
  have e₁ : State.Extends state s₁.2 := extending_resolve scope target state htidy
  have e₂ : State.Extends s₁.2 s₂.2 := extending_lowerExpr scope value none s₁.2 e₁.tidy
  have l₂ : Later s₂.2 final :=
    Later.of_extends (extending_lowerOperated op s₁.1 s₂.1 s₂.2 e₂.tidy) hlater
  have hquiet : Runs world args final 0 ⟨state, store, memory.calls⟩
      ⟨s₁.2, store, memory.calls⟩ := runs_silent (silent_resolve scope target) state store _
  have hvalue : Evaluates world args final s₁.2.room ⟨s₁.2, store, memory.calls⟩ none
      (isName value) s₂ (evalExpr world value memory) :=
    evaluates_lowerExpr scope value none e₁.tidy (hfits.mono e₁) l₂ hrep
  cases hresult : evalExpr world value memory with
  | error ending =>
      rw [hresult] at hvalue
      exact hquiet.ends hvalue
  | ok result =>
      obtain ⟨word, memory₁⟩ := result
      rw [hresult] at hvalue
      obtain ⟨store₁, hkept₁, hglobals₁, hruns₁, hstays₁⟩ := hvalue
      have hkept : Kept state.room store store₁ := (Kept.refl _ store).trans hkept₁ e₁.room
      have hrep₁ : Represents scope.vars memory₁ store₁ :=
        hrep.kept hfits hkept (vars_evalExpr hresult) hglobals₁
      exact (completes_operated htidy hfits e₂ hlater hrep₁ hstays₁.now).after
        (hquiet.trans hruns₁) (Outside.of_kept hkept) (e₁.trans e₂).room

/-- A call that was placed as a statement runs. -/
theorem run_callStmt {state : State} {call : Inst} {target : Symbol} {locs : List Loc}
    {isExternal : Bool} {store : Store} {calls : List CallEvent} (htidy : state.builder.Tidy)
    (hlater : Later (emit (fun builder => ((), builder.callStmt call)) state).2 final)
    (hrecord : final.builder.body.records[call.index]? = some (.call target locs isExternal []))
    {block : Block} {rest : List Inst}
    (hcursor : Cursor final.builder.body state.builder block rest) :
    ∃ n block' rest', (runs world args final).run (n + 1) ⟨block, rest, store, calls⟩ =
        final.builder.body.stepOver (settingOf world final.symbols args)
          ⟨block', rest', store, calls⟩ (.call target locs isExternal []) ∧
      Cursor final.builder.body (state.builder.callStmt call) block' rest' := by
  obtain ⟨n, block', rest', hrun, hnext⟩ :=
    Cursor.run_place (settingOf world final.symbols args) htidy.atEnd hlater.grows
      ⟨block, rest, store, calls⟩ hcursor
  refine ⟨n, block', rest', ?_, hnext ?_⟩
  · rw [System.run_add hrun, System.run_one]
    show final.builder.body.stepFrom _ ⟨block', call :: rest', store, calls⟩ = _
    rw [Body.stepFrom_cons rfl hrecord]
  · rintro inst record ⟨⟩ hrecord'
    cases hrecord.symm.trans hrecord'
    rfl

/-- **A CALL** as a statement is made, and its result is dropped. -/
theorem completes_call {rounds : Nat} {scope : Scope} {call : Call} {inLoop : Bool}
    {state : State} {memory : Memory} {store : Store} (htidy : state.builder.Tidy)
    (hfits : Fits state scope.vars) (hlater : Later (lowerStmt scope (.call call) state).2 final)
    (hrep : Represents scope.vars memory store) :
    Completes world args final rounds scope ⟨state, store, memory.calls⟩
      (lowerStmt scope (.call call) state).2
      (execStmt world rounds inLoop (.call call) memory) := by
  rw [lowerStmt] at hlater ⊢
  rw [execStmt]
  let s₁ := lowerCall scope call state
  have e₁ : State.Extends state s₁.2 := extending_lowerCall scope call state htidy
  have e₂ : State.Extends s₁.2 (emit (fun builder => ((), builder.callStmt s₁.1)) s₁.2).2 :=
    extending_emit (fun _ h => Builder.extends_callStmt h s₁.1) s₁.2 e₁.tidy
  have hcall : Readies world args final state.room ⟨state, store, memory.calls⟩ s₁
      (evalCall world call memory) :=
    readies_lowerCall scope call htidy hfits (Later.of_extends e₂ hlater) hrep
  rcases hcall with ⟨ending, hending, hends⟩ |
    ⟨store₁, calls₁, callee, locs, isExternal, hkept₁, hruns₁, hrecord, hreply⟩
  · rw [hending]
    exact hends
  · cases hresult : evalCall world call memory with
    | error ending =>
        rw [hresult] at hreply
        refine hruns₁.ends fun block rest hcursor => ?_
        obtain ⟨n, block', rest', hrun, -⟩ := run_callStmt e₁.tidy hlater hrecord hcursor
        refine ⟨n + 1, ?_⟩
        rw [hrun]
        simp only [Body.stepOver, hreply, replied]
    | ok result =>
        obtain ⟨word, memory₁⟩ := result
        rw [hresult] at hreply
        refine ⟨{ store₁ with globals := memory₁.globals }, ?_, Outside.of_kept hkept₁, ?_⟩
        · exact hrep.kept hfits hkept₁ (vars_evalCall hresult) rfl
        · refine hruns₁.trans (k := 0) fun block rest hcursor => ?_
          obtain ⟨n, block', rest', hrun, hnext⟩ := run_callStmt e₁.tidy hlater hrecord hcursor
          refine ⟨n + 1, block', rest', Nat.zero_le _, ?_, hnext⟩
          rw [hrun]
          simp only [Body.stepOver, hreply, replied]

/-- **A RETURN** ends the run with the value, if there is one. -/
theorem completes_ret {rounds : Nat} {scope : Scope} {value : Option Expr} {inLoop : Bool}
    {state : State} {memory : Memory} {store : Store} (htidy : state.builder.Tidy)
    (hfits : Fits state scope.vars) (hlater : Later (lowerStmt scope (.ret value) state).2 final)
    (hrep : Represents scope.vars memory store) :
    Completes world args final rounds scope ⟨state, store, memory.calls⟩
      (lowerStmt scope (.ret value) state).2
      (execStmt world rounds inLoop (.ret value) memory) := by
  cases value with
  | none =>
      rw [lowerStmt] at hlater ⊢
      rw [execStmt]
      intro block rest hcursor
      obtain ⟨n, block', rest', hrun, -⟩ :=
        run_appended world args store memory.calls htidy hlater.grows hcursor
      refine ⟨n + 1, ?_⟩
      rw [hrun]
      simp only [Body.stepOver, Config.stop, Memory.stop, hrep.globals]
  | some value =>
      rw [lowerStmt] at hlater ⊢
      rw [execStmt]
      let s₁ := lowerExpr scope value none state
      have e₁ : State.Extends state s₁.2 := extending_lowerExpr scope value none state htidy
      have e₂ : State.Extends s₁.2 (emit (·.ret (some s₁.1)) s₁.2).2 :=
        extending_emit (fun _ h => Builder.extends_ret h (some s₁.1)) s₁.2 e₁.tidy
      have hvalue : Evaluates world args final state.room ⟨state, store, memory.calls⟩ none
          (isName value) s₁ (evalExpr world value memory) :=
        evaluates_lowerExpr scope value none htidy hfits (Later.of_extends e₂ hlater) hrep
      cases hresult : evalExpr world value memory with
      | error ending =>
          rw [hresult] at hvalue
          exact hvalue
      | ok result =>
          obtain ⟨word, memory₁⟩ := result
          rw [hresult] at hvalue
          obtain ⟨store₁, hkept₁, hglobals₁, hruns₁, hstays₁⟩ := hvalue
          refine hruns₁.ends fun block rest hcursor => ?_
          have hload : (s₁.2.builder.load s₁.1).2.Tidy := ⟨e₁.tidy.atEnd, e₁.tidy.nonempty⟩
          have hgrows : (s₁.2.builder.load s₁.1).2.Grows final.builder :=
            (Builder.grows_append hload.atEnd _).trans hlater.grows
          have hop : final.builder.body.operand (settingOf world final.symbols args) store₁
              ⟨(lowerExpr scope value none state).2.builder.body.records.size⟩ = some word :=
            (operand_load hgrows).trans hstays₁.now
          obtain ⟨n, block', rest', hrun, -⟩ :=
            run_appended world args store₁ memory₁.calls hload hlater.grows
              (Cursor.congr rfl rfl hcursor)
          refine ⟨n + 1, ?_⟩
          rw [hrun]
          simp only [Body.stepOver, hop, Config.stop, Memory.stop, hglobals₁]

/-! ## Conditionals -/

/-- What holds at the test of a loop: the variables in scope are represented,
    and all others are as they were before the loop. -/
def AtTest (vars : List (String × Loc)) (bound : Nat) (before : Store) (memory : Memory)
    (store : Store) : Prop :=
  Represents vars memory store ∧ Outside vars bound before store

/-- A value is computed, and there is a branch on it. -/
theorem Evaluates.tests {vars : List (String × Loc)} {bound : Nat} {before : Store} {p : Point}
    {named : Bool} {lowered : Loc × State} {state late : State} {label : Label} {memory : Memory}
    {result : Except Ending (Word × Memory)} (hat : AtTest vars bound before memory p.store)
    (hfits : Fits p.state vars) (hbound : bound ≤ p.state.room)
    (hvalue : Evaluates world args final p.state.room p none named lowered result)
    (hvars : ∀ {word memory'}, result = .ok (word, memory') → memory'.vars = memory.vars)
    (hquiet : ∀ store calls,
      Runs world args final 0 ⟨lowered.2, store, calls⟩ ⟨state, store, calls⟩)
    (htidy : state.builder.Tidy)
    (hbranch : Later (emit (·.branchIfZero lowered.1 label) state).2 final)
    (hlate : late.builder.Tidy)
    (hunplaced : late.builder.body.labels[label.index]? = some none)
    (hlabel : Later (emit (·.label label) late).2 final) :
    Tests world args final (AtTest vars bound before) p
      (emit (·.branchIfZero lowered.1 label) state).2 (emit (·.label label) late).2 result := by
  obtain ⟨hrep, hout⟩ := hat
  cases result with
  | error ending => exact hvalue
  | ok value =>
      obtain ⟨word, memory'⟩ := value
      obtain ⟨store, hkept, hglobals, hruns, hstays⟩ := hvalue
      refine ⟨store, ⟨?_, ?_⟩, ?_⟩
      · exact hrep.kept hfits hkept (hvars rfl) hglobals
      · exact hout.trans (Outside.of_kept hkept) hbound
      · exact ((hruns.trans (hquiet store _)).trans
          (runs_test htidy hbranch hstays.now hlate hunplaced hlabel)).mono (by omega)

/-- Control goes on from where a test leads. -/
theorem Tests.completes {rounds : Nat} {scope : Scope} {p : Point} {body done late : State}
    {yes no : Memory → Completion} (hbody : p.state.room ≤ body.room)
    (hdone : p.state.room ≤ done.room)
    (hyes : ∀ memory store, Represents scope.vars memory store →
      Completes world args final rounds scope ⟨body, store, memory.calls⟩ late (yes memory))
    (hno : ∀ memory store, Represents scope.vars memory store →
      Completes world args final rounds scope ⟨done, store, memory.calls⟩ late (no memory)) :
    ∀ result,
      Tests world args final (AtTest scope.vars p.state.room p.store) p body done result →
      Completes world args final rounds scope p late
        (match result with
          | .error ending => .ended ending
          | .ok (word, memory) => if word = 0 then no memory else yes memory)
  | .error _, hends => hends
  | .ok (word, memory), ⟨store, ⟨hrep, hout⟩, hruns⟩ => by
      have hruns' := hruns.mono (Nat.zero_le 1)
      dsimp only
      by_cases hword : word = 0
      · rw [if_pos hword] at hruns' ⊢
        exact (hno memory store hrep).after hruns' hout hdone
      · rw [if_neg hword] at hruns' ⊢
        exact (hyes memory store hrep).after hruns' hout hbody

/-- What a lemma about the code of a block says of it, wherever it is lowered. -/
def BlockCompletes (world : World) (args : Nat → Word) (final : State) (rounds : Nat)
    (block : Source.Block) : Prop :=
  ∀ (scope : Scope) {state : State} {memory : Memory} {store : Store}, state.builder.Tidy →
    Fits state scope.vars → Later (lowerBlock scope block state).2 final →
    Represents scope.vars memory store →
    Completes world args final rounds scope ⟨state, store, memory.calls⟩
      (lowerBlock scope block state).2
      (execBlock world rounds scope.loop.isSome block memory)

/-- **A CONDITION WITHOUT AN ALTERNATIVE** runs its block or goes on behind it. -/
theorem completes_if {rounds : Nat} {scope : Scope} {cond : Expr} {thenBlock : Source.Block}
    {state : State} {memory : Memory} {store : Store} (htidy : state.builder.Tidy)
    (hfits : Fits state scope.vars)
    (hlater : Later (lowerStmt scope (.cond cond thenBlock none) state).2 final)
    (hrep : Represents scope.vars memory store)
    (hthen : BlockCompletes world args final rounds thenBlock) :
    Completes world args final rounds scope ⟨state, store, memory.calls⟩
      (lowerStmt scope (.cond cond thenBlock none) state).2
      (execStmt world rounds scope.loop.isSome (.cond cond thenBlock none) memory) := by
  rw [lowerStmt] at hlater ⊢
  rw [execStmt]
  let s₁ := lowerExpr scope cond none state
  let s₂ := build (·.newLabel) s₁.2
  let s₃ := emit (·.branchIfZero s₁.1 s₂.1) s₂.2
  let s₄ := lowerBlock scope thenBlock s₃.2
  let s₅ := emit (·.label s₂.1) s₄.2
  have e₁ : State.Extends state s₁.2 := extending_lowerExpr scope cond none state htidy
  have e₂ : State.Extends s₁.2 s₂.2 := extending_newLabel s₁.2 e₁.tidy
  have e₃ : State.Extends s₂.2 s₃.2 := extending_branchIfZero s₁.1 s₂.1 s₂.2 e₂.tidy
  have e₄ : State.Extends s₃.2 s₄.2 := extending_lowerBlock scope thenBlock s₃.2 e₃.tidy
  have unplaced₄ : s₄.2.builder.body.labels[s₂.1.index]? = some none :=
    (e₃.trans e₄).builder.unplaced (newLabel_unplaced s₁.2)
  have e₅ : State.Extends s₁.2 s₅.2 :=
    (e₂.trans (e₃.trans e₄)).label (Nat.le_of_eq (newLabel_index s₁.2).symm) unplaced₄
  have l₅ : Later s₅.2 final := hlater
  have l₄ : Later s₄.2 final := Later.of_label e₄.tidy unplaced₄ l₅
  have l₃ : Later s₃.2 final := Later.of_extends e₄ l₄
  have hcond : Evaluates world args final state.room ⟨state, store, memory.calls⟩ none
      (isName cond) s₁ (evalExpr world cond memory) :=
    evaluates_lowerExpr scope cond none htidy hfits (Later.of_extends (e₂.trans e₃) l₃) hrep
  -- both ways lead to the label behind the block
  refine Tests.completes (e₁.trans (e₂.trans e₃)).room (e₁.trans e₅).room ?_ ?_ _
    (hcond.tests ⟨hrep, Outside.refl _ _ _⟩ hfits (Nat.le_refl _) vars_evalExpr
      (runs_silent silent_newLabel s₁.2) e₂.tidy l₃ e₄.tidy unplaced₄ l₅)
  · intro memory₁ store₁ hrep₁
    exact (hthen scope e₃.tidy (hfits.mono (e₁.trans (e₂.trans e₃))) l₄ hrep₁).before
      fun store' calls' => (runs_label world args store' calls' e₄.tidy l₅).mono (Nat.zero_le 1)
  · intro memory₁ store₁ hrep₁
    exact ⟨store₁, hrep₁, Outside.refl _ _ _, Runs.refl _⟩

/-- **A CONDITION WITH AN ALTERNATIVE** runs one of its blocks. -/
theorem completes_ifElse {rounds : Nat} {scope : Scope} {cond : Expr}
    {thenBlock elseBlock : Source.Block} {state : State} {memory : Memory} {store : Store}
    (htidy : state.builder.Tidy) (hfits : Fits state scope.vars)
    (hlater : Later (lowerStmt scope (.cond cond thenBlock (some elseBlock)) state).2 final)
    (hrep : Represents scope.vars memory store)
    (hthen : BlockCompletes world args final rounds thenBlock)
    (helse : BlockCompletes world args final rounds elseBlock) :
    Completes world args final rounds scope ⟨state, store, memory.calls⟩
      (lowerStmt scope (.cond cond thenBlock (some elseBlock)) state).2
      (execStmt world rounds scope.loop.isSome (.cond cond thenBlock (some elseBlock)) memory) := by
  rw [lowerStmt] at hlater ⊢
  rw [execStmt]
  let s₁ := lowerExpr scope cond none state
  let s₂ := build (·.newLabel) s₁.2
  let s₃ := emit (·.branchIfZero s₁.1 s₂.1) s₂.2
  let s₄ := lowerBlock scope thenBlock s₃.2
  let s₅ := build (·.newLabel) s₄.2
  let s₆ := emit (·.jump s₅.1) s₅.2
  let s₇ := emit (·.label s₂.1) s₆.2
  let s₈ := lowerBlock scope elseBlock s₇.2
  let s₉ := emit (·.label s₅.1) s₈.2
  have e₁ : State.Extends state s₁.2 := extending_lowerExpr scope cond none state htidy
  have e₂ : State.Extends s₁.2 s₂.2 := extending_newLabel s₁.2 e₁.tidy
  have e₃ : State.Extends s₂.2 s₃.2 := extending_branchIfZero s₁.1 s₂.1 s₂.2 e₂.tidy
  have e₄ : State.Extends s₃.2 s₄.2 := extending_lowerBlock scope thenBlock s₃.2 e₃.tidy
  have e₅ : State.Extends s₄.2 s₅.2 := extending_newLabel s₄.2 e₄.tidy
  have e₆ : State.Extends s₅.2 s₆.2 := extending_jump s₅.1 s₅.2 e₅.tidy
  have unplaced₂ : s₄.2.builder.body.labels[s₂.1.index]? = some none :=
    (e₃.trans e₄).builder.unplaced (newLabel_unplaced s₁.2)
  have unplaced₆ : s₆.2.builder.body.labels[s₂.1.index]? = some none :=
    (e₅.trans e₆).builder.unplaced unplaced₂
  have e₇ : State.Extends s₁.2 s₇.2 :=
    (e₂.trans (e₃.trans (e₄.trans (e₅.trans e₆)))).label
      (Nat.le_of_eq (newLabel_index s₁.2).symm) unplaced₆
  have e₈ : State.Extends s₇.2 s₈.2 := extending_lowerBlock scope elseBlock s₇.2 e₇.tidy
  -- the second label is placed last, so it is still free behind both blocks
  have unplaced₈ : s₈.2.builder.body.labels[s₅.1.index]? = some none :=
    e₈.builder.unplaced
      (unplaced_label e₆.tidy (newLabel_ne unplaced₂)
        (e₆.builder.unplaced (newLabel_unplaced s₄.2)))
  have l₉ : Later s₉.2 final := hlater
  have l₈ : Later s₈.2 final := Later.of_label e₈.tidy unplaced₈ l₉
  have l₇ : Later s₇.2 final := Later.of_extends e₈ l₈
  have l₆ : Later s₆.2 final := Later.of_label e₆.tidy unplaced₆ l₇
  have l₄ : Later s₄.2 final := Later.of_extends (e₅.trans e₆) l₆
  have l₃ : Later s₃.2 final := Later.of_extends e₄ l₄
  have hcond : Evaluates world args final state.room ⟨state, store, memory.calls⟩ none
      (isName cond) s₁ (evalExpr world cond memory) :=
    evaluates_lowerExpr scope cond none htidy hfits (Later.of_extends (e₂.trans e₃) l₃) hrep
  refine Tests.completes (e₁.trans (e₂.trans e₃)).room (e₁.trans e₇).room ?_ ?_ _
    (hcond.tests ⟨hrep, Outside.refl _ _ _⟩ hfits (Nat.le_refl _) vars_evalExpr
      (runs_silent silent_newLabel s₁.2) e₂.tidy l₃ e₆.tidy unplaced₆ l₇)
  · intro memory₁ store₁ hrep₁
    refine (hthen scope e₃.tidy (hfits.mono (e₁.trans (e₂.trans e₃))) l₄ hrep₁).before
      fun store' calls' => ?_
    have hjump := (jumps_jump world args store' calls' e₅.tidy l₆).lands e₈.tidy unplaced₈ l₉
    exact ((runs_silent silent_newLabel s₄.2 store' calls').trans hjump).mono (Nat.zero_le _)
  · intro memory₁ store₁ hrep₁
    exact (helse scope e₇.tidy (hfits.mono (e₁.trans e₇)) l₈ hrep₁).before
      fun store' calls' => (runs_label world args store' calls' e₈.tidy l₉).mono (Nat.zero_le 1)

/-! ## While loops -/

/-- A loop, with the steps before it, is a statement. -/
theorem Loops.completes {rounds bound : Nat} {scope : Scope} {p q : Point} {done : State}
    {before : Store} {completion : Completion}
    (h : Loops world args final (AtTest scope.vars bound before) rounds q done completion)
    (hruns : Runs world args final 0 p q)
    (hout : Outside scope.vars p.state.room p.store before) (hbound : p.state.room ≤ bound) :
    Completes world args final rounds scope p done completion := by
  cases completion with
  | next memory =>
      obtain ⟨store, ⟨hrep, hout'⟩, hruns'⟩ := h
      exact ⟨store, hrep, hout.trans hout' hbound, hruns.trans hruns'⟩
  | leftLoop memory => exact h.elim
  | nextRound memory => exact h.elim
  | ended ending => exact hruns.ends h
  | unfinished calls => exact Lasts.after h hruns

/-- The body of a loop is a round, if control gets from the end of the body, and
    from the exit for the next round, to a point that leads back to the test. -/
theorem Completes.round {rounds bound : Nat} {scope : Scope} {exits : LoopExits} {p : Point}
    {state again top done : State} {before : Store} {after : Memory → Except Ending Memory}
    {completion : Completion} (hout : Outside scope.vars bound before p.store)
    (hbound : bound ≤ p.state.room)
    (hbody : Completes world args final rounds { scope with loop := some exits } p state completion)
    (hfall : ∀ store calls,
      Runs world args final 0 ⟨state, store, calls⟩ ⟨again, store, calls⟩)
    (hnext : ∀ {store calls}, Jumps world args final p exits.next store calls →
      Runs world args final 1 p ⟨again, store, calls⟩)
    (hdone : ∀ {store calls}, Jumps world args final p exits.done store calls →
      Runs world args final 1 p ⟨done, store, calls⟩)
    (hagain : ∀ {memory store}, AtTest scope.vars bound before memory store →
      Runs world args final 0 p ⟨again, store, memory.calls⟩ →
      Rounds world args final (AtTest scope.vars bound before) rounds p top done after
        (.next memory)) :
    Rounds world args final (AtTest scope.vars bound before) rounds p top done after
      completion := by
  cases completion with
  | next memory =>
      obtain ⟨store, hrep, hout', hruns⟩ := hbody
      exact hagain ⟨hrep, hout.trans hout' hbound⟩ (hruns.trans (hfall store memory.calls))
  | nextRound memory =>
      obtain ⟨_, store, ⟨⟩, hrep, hout', hjumps⟩ := hbody
      exact hagain ⟨hrep, hout.trans hout' hbound⟩ ((hnext hjumps).mono (Nat.zero_le 1))
  | leftLoop memory =>
      obtain ⟨_, store, ⟨⟩, hrep, hout', hjumps⟩ := hbody
      exact ⟨store, ⟨hrep, hout.trans hout' hbound⟩, (hdone hjumps).mono (Nat.zero_le 1)⟩
  | ended ending => exact hbody
  | unfinished calls => exact hbody

/-- **A WHILE LOOP** comes back to its test after every round. -/
theorem completes_while {rounds : Nat} {scope : Scope} {cond : Expr} {body : Source.Block}
    {inLoop : Bool} {state : State} {memory : Memory} {store : Store}
    (htidy : state.builder.Tidy) (hfits : Fits state scope.vars)
    (hlater : Later (lowerStmt scope (.whileLoop cond body) state).2 final)
    (hrep : Represents scope.vars memory store)
    (hbody : BlockCompletes world args final rounds body) :
    Completes world args final rounds scope ⟨state, store, memory.calls⟩
      (lowerStmt scope (.whileLoop cond body) state).2
      (execStmt world rounds inLoop (.whileLoop cond body) memory) := by
  rw [lowerStmt] at hlater ⊢
  rw [execStmt]
  let s₁ := build (·.newLabel) state
  let s₂ := build (·.newLabel) s₁.2
  let s₃ := emit (·.label s₁.1) s₂.2
  let s₄ := lowerExpr scope cond none s₃.2
  let s₅ := emit (·.branchIfZero s₄.1 s₂.1) s₄.2
  let inner : Scope := { scope with loop := some ⟨s₁.1, s₂.1⟩ }
  let s₆ := lowerBlock inner body s₅.2
  let s₇ := emit (·.jump s₁.1) s₆.2
  let s₈ := emit (·.label s₂.1) s₇.2
  have e₁ : State.Extends state s₁.2 := extending_newLabel state htidy
  have e₂ : State.Extends s₁.2 s₂.2 := extending_newLabel s₁.2 e₁.tidy
  have unplaced₁ : s₂.2.builder.body.labels[s₁.1.index]? = some none :=
    e₂.builder.unplaced (newLabel_unplaced state)
  have e₃ : State.Extends state s₃.2 :=
    (e₁.trans e₂).label (Nat.le_of_eq (newLabel_index state).symm) unplaced₁
  have e₄ : State.Extends s₃.2 s₄.2 := extending_lowerExpr scope cond none s₃.2 e₃.tidy
  have e₅ : State.Extends s₄.2 s₅.2 := extending_branchIfZero s₄.1 s₂.1 s₄.2 e₄.tidy
  have e₆ : State.Extends s₅.2 s₆.2 := extending_lowerBlock inner body s₅.2 e₅.tidy
  have e₇ : State.Extends s₆.2 s₇.2 := extending_jump s₁.1 s₆.2 e₆.tidy
  have unplaced₇ : s₇.2.builder.body.labels[s₂.1.index]? = some none :=
    (e₄.trans (e₅.trans (e₆.trans e₇))).builder.unplaced
      (unplaced_label e₂.tidy (newLabel_ne (newLabel_unplaced state)) (newLabel_unplaced s₁.2))
  have l₈ : Later s₈.2 final := hlater
  have l₇ : Later s₇.2 final := Later.of_label e₇.tidy unplaced₇ l₈
  have l₆ : Later s₆.2 final := Later.of_extends e₇ l₇
  have l₅ : Later s₅.2 final := Later.of_extends e₆ l₆
  have l₄ : Later s₄.2 final := Later.of_extends e₅ l₅
  have l₃ : Later s₃.2 final := Later.of_extends e₄ l₄
  -- the invariant is about the test, where every round comes back to
  have htest : ∀ memory store', AtTest scope.vars state.room store memory store' →
      Tests world args final (AtTest scope.vars state.room store)
        ⟨s₃.2, store', memory.calls⟩ s₅.2 s₈.2 (evalExpr world cond memory) := by
    intro memory store' hat
    have hcond : Evaluates world args final s₃.2.room ⟨s₃.2, store', memory.calls⟩ none
        (isName cond) s₄ (evalExpr world cond memory) :=
      evaluates_lowerExpr scope cond none e₃.tidy (hfits.mono e₃) l₄ hat.1
    exact hcond.tests hat (hfits.mono e₃) e₃.room vars_evalExpr (fun _ _ => Runs.refl _) e₄.tidy l₅
      e₇.tidy unplaced₇ l₈
  have hround : ∀ memory store', AtTest scope.vars state.room store memory store' →
      Rounds world args final (AtTest scope.vars state.room store) rounds
        ⟨s₅.2, store', memory.calls⟩ s₃.2 s₈.2 .ok (execBlock world rounds true body memory) := by
    rintro memory store' ⟨hrep', hout'⟩
    refine Completes.round hout' (e₃.trans (e₄.trans e₅)).room
      (hbody inner e₅.tidy (hfits.mono (e₃.trans (e₄.trans e₅))) l₆ hrep') ?_
      (Jumps.lands e₂.tidy unplaced₁ l₃) (Jumps.lands e₇.tidy unplaced₇ l₈)
      fun hat hruns => ⟨_, hat, hruns⟩
    intro store₁ calls₁
    exact ((jumps_jump world args store₁ calls₁ e₆.tidy l₇).lands e₂.tidy unplaced₁ l₃).mono
      (Nat.zero_le 1)
  have hstart : Runs world args final 0 ⟨state, store, memory.calls⟩
      ⟨s₃.2, store, memory.calls⟩ :=
    ((runs_silent silent_newLabel state store _).trans
      (runs_silent silent_newLabel s₁.2 store _)).trans
      ((runs_label world args store memory.calls e₂.tidy l₃).mono (Nat.zero_le 1))
  exact (loops htest hround rounds (Nat.le_refl _) memory store
    ⟨hrep, Outside.refl _ _ _⟩).completes hstart (Outside.refl _ _ _) (Nat.le_refl _)

/-! ## Counting loops -/

/-- The rounds of a loop that counts up to a limit. -/
def lowerCounting (scope : Scope) (counter limit : Loc) (body : Source.Block) : Lower Unit := do
  let top ← build (·.newLabel)
  let next ← build (·.newLabel)
  let done ← build (·.newLabel)
  emit (·.label top)
  let test ← freshResult
  let less ← build (·.binary .lt counter limit)
  emit (·.save less test)
  emit (·.branchIfZero test done)
  lowerBlock { scope with loop := some ⟨next, done⟩ } body
  emit (·.label next)
  let one ← build (·.constant 1)
  let sum ← build (·.binary .add counter one)
  emit (·.save sum counter)
  emit (·.jump top)
  emit (·.label done)

/-- A counting loop in parts: its bounds, and the loop itself. -/
theorem lowerStmt_forLoop (scope : Scope) (var : String) (start bound : Expr)
    (body : Source.Block) :
    lowerStmt scope (.forLoop var start bound body) = (do
      let counter ← resolve scope var
      let limit ← freshResult
      let _ ← lowerExpr scope start (some counter)
      let _ ← lowerExpr scope bound (some limit)
      lowerCounting scope counter limit body) := by
  rw [lowerStmt]
  rfl

/-- The counting only adds to the body. -/
theorem extending_lowerCounting (scope : Scope) (counter limit : Loc) (body : Source.Block) :
    Extending (lowerCounting scope counter limit body) := by
  have hlabels := extending_betweenThreeLabels
    (fun next done => extending_freshResult.bind fun test =>
      (extending_binary .lt counter limit).bind fun less =>
        (extending_save less test).bind fun _ =>
          (extending_branchIfZero test done).bind fun _ =>
            extending_lowerBlock { scope with loop := some ⟨next, done⟩ } body)
    (fun top => (extending_constant 1).bind fun one =>
      (extending_binary .add counter one).bind fun sum =>
        (extending_save sum counter).bind fun _ => extending_jump top)
  simp only [bind_assoc] at hlabels
  exact hlabels

/-- The test of a counting loop: a branch on whether the counter is less than the limit. -/
def lowerLess (counter limit : Loc) (done : Label) : Lower Unit := do
  let test ← freshResult
  let less ← build (·.binary .lt counter limit)
  emit (·.save less test)
  emit (·.branchIfZero test done)

/-- The test of a counting loop only adds to the body. -/
theorem extending_lowerLess (counter limit : Loc) (done : Label) :
    Extending (lowerLess counter limit done) :=
  extending_freshResult.bind fun test => (extending_binary .lt counter limit).bind fun less =>
    (extending_save less test).bind fun _ => extending_branchIfZero test done

/-- The test of a counting loop compares the counter with the limit. -/
theorem tests_lowerLess {scope : Scope} {var : String} {start state late : State} {limit : Loc}
    {label : Label} {last : Word} {bound : Nat} {before : Store} {memory : Memory} {store : Store}
    (hstart : start.builder.Tidy) (hfits : Fits start scope.vars)
    (hextends : (resolve scope var start).2.Extends state) (hbound : bound ≤ state.room)
    (hat : AtTest scope.vars bound before memory store)
    (hlimit : contents world args final store limit = some last)
    (hbranch : Later (lowerLess (resolve scope var start).1 limit label state).2 final)
    (hlate : late.builder.Tidy)
    (hunplaced : late.builder.body.labels[label.index]? = some none)
    (hlabel : Later (emit (·.label label) late).2 final) :
    Tests world args final (AtTest scope.vars bound before) ⟨state, store, memory.calls⟩
      (lowerLess (resolve scope var start).1 limit label state).2 (emit (·.label label) late).2
      ((·, memory) <$> memory.operate world .lt (memory.get var) last) := by
  let counter := (resolve scope var start).1
  let s₁ := freshResult state
  let s₂ := build (·.binary .lt counter limit) s₁.2
  let s₃ := emit (·.save s₂.1 s₁.1) s₂.2
  have e₀ : State.Extends start (resolve scope var start).2 :=
    extending_resolve scope var start hstart
  have e₁ : State.Extends state s₁.2 := extending_freshResult state hextends.tidy
  have e₂ : State.Extends s₁.2 s₂.2 := extending_binary .lt counter limit s₁.2 e₁.tidy
  have e₃ : State.Extends s₂.2 s₃.2 := extending_save s₂.1 s₁.1 s₂.2 e₂.tidy
  have l₃ : Later s₃.2 final :=
    Later.of_extends (extending_branchIfZero s₁.1 label s₃.2 e₃.tidy) hbranch
  have l₀ : Later (resolve scope var start).2 final :=
    Later.of_extends (hextends.trans (e₁.trans (e₂.trans e₃))) l₃
  have hcounter : contents world args final store counter = some (memory.get var) :=
    contents_resolve hstart hfits l₀ hat.1
  have hfresh : (targetOrFresh none state).2.Extends s₁.2 := State.Extends.refl e₁.tidy
  have hsaved : Evaluates world args final state.room ⟨s₁.2, store, memory.calls⟩ none false
      (s₁.1, s₃.2) (do return (← memory.operate world .lt (memory.get var) last, memory)) :=
    evaluates_binary hfresh l₃ hcounter hlimit hat.1.globals
  have hless : Evaluates world args final state.room ⟨state, store, memory.calls⟩ none false
      (s₁.1, s₃.2) ((·, memory) <$> memory.operate world .lt (memory.get var) last) := by
    rw [map_eq_pure_bind]
    exact hsaved.after (runs_silent silent_freshResult state store _) (Kept.refl _ _)
  have hvars : ∀ {word memory'},
      (·, memory) <$> memory.operate world .lt (memory.get var) last = .ok (word, memory') →
        memory'.vars = memory.vars := by
    intro word memory' h
    rw [map_eq_pure_bind] at h
    obtain ⟨_, -, h⟩ := bind_eq_ok h
    cases h
    rfl
  have htests := hless.tests hat (hfits.mono (e₀.trans hextends)) hbound hvars
    (fun _ _ => Runs.refl _) e₃.tidy hbranch hlate hunplaced hlabel
  exact htests

/-- The end of a round of a counting loop. -/
def lowerNext (counter : Loc) (top : Label) : Lower Unit := do
  let one ← build (·.constant 1)
  lowerOperated .add counter one
  emit (·.jump top)

/-- The advance of a counting loop only adds to the body. -/
theorem extending_lowerNext (counter : Loc) (top : Label) : Extending (lowerNext counter top) :=
  (extending_constant 1).bind fun one => (extending_lowerOperated .add counter one).bind fun _ =>
    extending_jump top

/-- Counting up leads back to the test. -/
theorem rounds_lowerNext {rounds bound : Nat} {scope : Scope} {var : String}
    {start state early : State} {top : Label} {done : State} {before : Store} {p : Point}
    {memory : Memory} {store : Store} (hstart : start.builder.Tidy)
    (hfits : Fits start scope.vars) (hextends : (resolve scope var start).2.Extends state)
    (hbound : bound ≤ state.room)
    (hlater : Later (lowerNext (resolve scope var start).1 top state).2 final)
    (hearly : early.builder.Tidy)
    (hunplaced : early.builder.body.labels[top.index]? = some none)
    (hlabel : Later (emit (·.label top) early).2 final)
    (hat : AtTest scope.vars bound before memory store)
    (hruns : Runs world args final 0 p ⟨state, store, memory.calls⟩) :
    Rounds world args final (AtTest scope.vars bound before) rounds p
      (emit (·.label top) early).2 done
      (fun memory => memory.set var <$> memory.operate world .add (memory.get var) 1)
      (.next memory) := by
  obtain ⟨hrep, hout⟩ := hat
  let counter := (resolve scope var start).1
  let s₁ := build (·.constant 1) state
  let s₂ := lowerOperated .add counter s₁.1 s₁.2
  have e₁ : State.Extends state s₁.2 := extending_constant 1 state hextends.tidy
  have e₂ : State.Extends s₁.2 s₂.2 := extending_lowerOperated .add counter s₁.1 s₁.2 e₁.tidy
  have l₂ : Later s₂.2 final := Later.of_extends (extending_jump top s₂.2 e₂.tidy) hlater
  have hsum : Completes world args final rounds scope ⟨s₁.2, store, memory.calls⟩ s₂.2 _ :=
    completes_operated hstart hfits (hextends.trans e₁) l₂ hrep
      (contents_constant (Later.of_extends e₂ l₂) store)
  have hone : Runs world args final 0 p ⟨s₁.2, store, memory.calls⟩ :=
    hruns.trans (runs_silent (silent_internLoc (.constant 1)) state store _)
  rw [Rounds]
  cases hresult : memory.operate world .add (memory.get var) 1 with
  | error ending =>
      rw [hresult] at hsum
      exact hone.ends hsum
  | ok word =>
      rw [hresult] at hsum
      obtain ⟨store₁, hrep₁, hout₁, hruns₁⟩ := hsum
      have hback := (jumps_jump world args store₁ (memory.set var word).calls e₂.tidy hlater).lands
        hearly hunplaced hlabel
      exact ⟨store₁, ⟨hrep₁, hout.trans hout₁ (Nat.le_trans hbound e₁.room)⟩,
        ((hone.trans hruns₁).trans hback).mono (Nat.zero_le _)⟩

/-- The rounds of a loop that counts a name up to a word that is held outside
    of the scope. -/
theorem completes_counting {rounds : Nat} {scope : Scope} {var : String} {start : State}
    {limit : Loc} {symbol : Symbol} {last : Word} {body : Source.Block} {state : State}
    {memory : Memory} {store : Store}
    (hstart : start.builder.Tidy) (hfits : Fits start scope.vars)
    (hextends : (resolve scope var start).2.Extends state)
    (hlater : Later (lowerCounting scope (resolve scope var start).1 limit body state).2 final)
    (hlimit : final.builder.body.locations[limit.index]? = some (.localVar symbol))
    (hold : limit.index < state.room) (hnot : limit ∉ scope.vars.map Prod.snd)
    (hlast : store.locals limit = some last)
    (hrep : Represents scope.vars memory store)
    (hbody : BlockCompletes world args final rounds body) :
    Completes world args final rounds scope ⟨state, store, memory.calls⟩
      (lowerCounting scope (resolve scope var start).1 limit body state).2
      (loop (fun memory => (·, memory) <$> memory.operate world .lt (memory.get var) last)
        (execBlock world rounds true body)
        (fun memory => memory.set var <$> memory.operate world .add (memory.get var) 1)
        rounds memory) := by
  let counter := (resolve scope var start).1
  -- the states are named one by one: as nested terms they would be repeated at each use
  let s₁ := build (·.newLabel) state
  let s₂ := build (·.newLabel) s₁.2
  let s₃ := build (·.newLabel) s₂.2
  let s₄ := emit (·.label s₁.1) s₃.2
  let s₅ := lowerLess counter limit s₃.1 s₄.2
  let inner : Scope := { scope with loop := some ⟨s₂.1, s₃.1⟩ }
  let s₆ := lowerBlock inner body s₅.2
  let s₇ := emit (·.label s₂.1) s₆.2
  let s₈ := lowerNext counter s₁.1 s₇.2
  let s₉ := emit (·.label s₃.1) s₈.2
  have hcode : (lowerCounting scope counter limit body state).2 = s₉.2 := by
    rw [lowerCounting]
    repeat rw [bind_apply]
    rfl
  rw [hcode] at hlater ⊢
  have e₀ : State.Extends start (resolve scope var start).2 :=
    extending_resolve scope var start hstart
  have e₁ : State.Extends state s₁.2 := extending_newLabel state hextends.tidy
  have e₂ : State.Extends s₁.2 s₂.2 := extending_newLabel s₁.2 e₁.tidy
  have e₃ : State.Extends s₂.2 s₃.2 := extending_newLabel s₂.2 e₂.tidy
  have unplaced₁ : s₃.2.builder.body.labels[s₁.1.index]? = some none :=
    (e₂.trans e₃).builder.unplaced (newLabel_unplaced state)
  -- the three labels are different, so each of them is free until it is placed
  have distinct₂ : s₁.1.index ≠ s₂.1.index := newLabel_ne (newLabel_unplaced state)
  have distinct₃ : s₁.1.index ≠ s₃.1.index :=
    newLabel_ne (e₂.builder.unplaced (newLabel_unplaced state))
  have e₄ : State.Extends state s₄.2 :=
    (e₁.trans (e₂.trans e₃)).label (Nat.le_of_eq (newLabel_index state).symm) unplaced₁
  have e₅ : State.Extends s₄.2 s₅.2 := extending_lowerLess counter limit s₃.1 s₄.2 e₄.tidy
  have e₆ : State.Extends s₅.2 s₆.2 := extending_lowerBlock inner body s₅.2 e₅.tidy
  have unplaced₂ : s₆.2.builder.body.labels[s₂.1.index]? = some none :=
    (e₅.trans e₆).builder.unplaced
      (unplaced_label e₃.tidy distinct₂ (e₃.builder.unplaced (newLabel_unplaced s₁.2)))
  have e₇ : State.Extends state s₇.2 := (e₄.trans (e₅.trans e₆)).label e₁.newer unplaced₂
  have e₈ : State.Extends s₇.2 s₈.2 := extending_lowerNext counter s₁.1 s₇.2 e₇.tidy
  have unplaced₃ : s₆.2.builder.body.labels[s₃.1.index]? = some none :=
    (e₅.trans e₆).builder.unplaced
      (unplaced_label e₃.tidy distinct₃ (newLabel_unplaced s₂.2))
  have unplaced₈ : s₈.2.builder.body.labels[s₃.1.index]? = some none :=
    e₈.builder.unplaced
      (unplaced_label e₆.tidy (newLabel_ne (newLabel_unplaced s₁.2)) unplaced₃)
  have l₉ : Later s₉.2 final := hlater
  have l₈ : Later s₈.2 final := Later.of_label e₈.tidy unplaced₈ l₉
  have l₇ : Later s₇.2 final := Later.of_extends e₈ l₈
  have l₆ : Later s₆.2 final := Later.of_label e₆.tidy unplaced₂ l₇
  have l₅ : Later s₅.2 final := Later.of_extends e₆ l₆
  have l₄ : Later s₄.2 final := Later.of_extends e₅ l₅
  have htest : ∀ memory store', AtTest scope.vars state.room store memory store' →
      Tests world args final (AtTest scope.vars state.room store)
        ⟨s₄.2, store', memory.calls⟩ s₅.2 s₉.2
        ((·, memory) <$> memory.operate world .lt (memory.get var) last) := by
    intro memory store' hat
    refine tests_lowerLess hstart hfits (hextends.trans e₄) e₄.room hat ?_ l₅ e₈.tidy unplaced₈ l₉
    -- nothing in the loop writes the limit
    rw [contents_of_local hlimit, hat.2 limit hold hnot]
    exact hlast
  have hround : ∀ memory store', AtTest scope.vars state.room store memory store' →
      Rounds world args final (AtTest scope.vars state.room store) rounds
        ⟨s₅.2, store', memory.calls⟩ s₄.2 s₉.2
        (fun memory => memory.set var <$> memory.operate world .add (memory.get var) 1)
        (execBlock world rounds true body memory) := by
    rintro memory store' ⟨hrep', hout'⟩
    exact Completes.round hout' (e₄.trans e₅).room
      (hbody inner e₅.tidy (hfits.mono (e₀.trans (hextends.trans (e₄.trans e₅)))) l₆ hrep')
      (fun store₁ calls₁ => (runs_label world args store₁ calls₁ e₆.tidy l₇).mono (Nat.zero_le 1))
      (Jumps.lands e₆.tidy unplaced₂ l₇) (Jumps.lands e₈.tidy unplaced₈ l₉)
      (rounds_lowerNext hstart hfits (hextends.trans e₇) e₇.room l₈ e₃.tidy unplaced₁ l₄)
  have hbegin : Runs world args final 0 ⟨state, store, memory.calls⟩
      ⟨s₄.2, store, memory.calls⟩ :=
    (((runs_silent silent_newLabel state store _).trans
      (runs_silent silent_newLabel s₁.2 store _)).trans
      (runs_silent silent_newLabel s₂.2 store _)).trans
      ((runs_label world args store memory.calls e₃.tidy l₄).mono (Nat.zero_le 1))
  exact (loops htest hround rounds (Nat.le_refl _) memory store
    ⟨hrep, Outside.refl _ _ _⟩).completes hbegin (Outside.refl _ _ _) (Nat.le_refl _)

/-- **A COUNTING LOOP** evaluates its limit once, behind the first value of its counter. -/
theorem completes_for {rounds : Nat} {scope : Scope} {var : String} {start bound : Expr}
    {body : Source.Block} {inLoop : Bool} {state : State} {memory : Memory} {store : Store}
    (htidy : state.builder.Tidy) (hfits : Fits state scope.vars)
    (hlater : Later (lowerStmt scope (.forLoop var start bound body) state).2 final)
    (hrep : Represents scope.vars memory store)
    (hbody : BlockCompletes world args final rounds body) :
    Completes world args final rounds scope ⟨state, store, memory.calls⟩
      (lowerStmt scope (.forLoop var start bound body) state).2
      (execStmt world rounds inLoop (.forLoop var start bound body) memory) := by
  rw [execStmt]
  let s₁ := resolve scope var state
  let s₂ := freshResult s₁.2
  let s₃ := lowerExpr scope start (some s₁.1) s₂.2
  let s₄ := lowerExpr scope bound (some s₂.1) s₃.2
  have hcode : (lowerStmt scope (.forLoop var start bound body) state).2 =
      (lowerCounting scope s₁.1 s₂.1 body s₄.2).2 := by
    rw [lowerStmt_forLoop]
    repeat rw [bind_apply]
  rw [hcode] at hlater ⊢
  have e₁ : State.Extends state s₁.2 := extending_resolve scope var state htidy
  have e₂ : State.Extends s₁.2 s₂.2 := extending_freshResult s₁.2 e₁.tidy
  have e₃ : State.Extends s₂.2 s₃.2 := extending_lowerExpr scope start (some s₁.1) s₂.2 e₂.tidy
  have e₄ : State.Extends s₃.2 s₄.2 := extending_lowerExpr scope bound (some s₂.1) s₃.2 e₃.tidy
  have l₄ : Later s₄.2 final :=
    Later.of_extends (extending_lowerCounting scope s₁.1 s₂.1 body s₄.2 e₄.tidy) hlater
  have l₃ : Later s₃.2 final := Later.of_extends e₄ l₄
  have l₂ : Later s₂.2 final := Later.of_extends e₃ l₃
  have l₁ : Later s₁.2 final := Later.of_extends e₂ l₂
  obtain ⟨symbol, hlimit⟩ := location_freshResult l₂
  -- the limit is a new location, so no variable in scope is kept in it
  have hnew : state.room ≤ s₂.1.index := e₁.room
  have hnot : s₂.1 ∉ scope.vars.map Prod.snd := fun hmem =>
    Nat.lt_irrefl _ (Nat.lt_of_lt_of_le (hfits.lt hmem) hnew)
  have hroom₄ : s₂.1.index < s₄.2.room :=
    Nat.lt_of_lt_of_le (by rw [room_freshResult]; exact Nat.lt_succ_self _) (e₃.trans e₄).room
  have hquiet : Runs world args final 0 ⟨state, store, memory.calls⟩
      ⟨s₂.2, store, memory.calls⟩ :=
    (runs_silent (silent_resolve scope var) state store _).trans
      (runs_silent silent_freshResult s₁.2 store _)
  have hfirst : Evaluates world args final s₂.2.room ⟨s₂.2, store, memory.calls⟩ (some s₁.1)
      (isName start) s₃ (evalExpr world start memory) :=
    evaluates_lowerExpr scope start (some s₁.1) e₂.tidy (hfits.mono (e₁.trans e₂)) l₃ hrep
  cases hstart : evalExpr world start memory with
  | error ending =>
      rw [hstart] at hfirst
      exact hquiet.ends hfirst
  | ok result =>
      obtain ⟨first, memory₁⟩ := result
      rw [hstart] at hfirst
      obtain ⟨store₁, hkept₁, hglobals₁, harrives₁⟩ := hfirst
      have hkept : Kept state.room store store₁ :=
        (Kept.refl _ store).trans hkept₁ (e₁.trans e₂).room
      have hrep₁ : Represents scope.vars memory₁ store₁ :=
        hrep.kept hfits hkept (vars_evalExpr hstart) hglobals₁
      -- the counter gets its first value before the bound is evaluated
      obtain ⟨store₂, hrep₂, hout₂, hruns₂⟩ :
          Completes world args final rounds scope ⟨state, store, memory.calls⟩ s₃.2
            (.next (memory₁.set var first)) :=
        completes_written htidy hfits l₁ hrep₁ (Outside.of_kept hkept)
          fun store' hwrite => hquiet.trans (harrives₁ store' hwrite)
      have hbound : Evaluates world args final s₃.2.room
          ⟨s₃.2, store₂, (memory₁.set var first).calls⟩ (some s₂.1) (isName bound) s₄
          (evalExpr world bound (memory₁.set var first)) :=
        evaluates_lowerExpr scope bound (some s₂.1) e₃.tidy
          (hfits.mono (e₁.trans (e₂.trans e₃))) l₄ hrep₂
      dsimp only
      cases hlast : evalExpr world bound (memory₁.set var first) with
      | error ending =>
          rw [hlast] at hbound
          exact hruns₂.ends hbound
      | ok result =>
          obtain ⟨last, memory₃⟩ := result
          rw [hlast] at hbound
          obtain ⟨store₃, hkept₃, hglobals₃, harrives₃⟩ := hbound
          have hruns₃ := harrives₃ _ (written_of_local hlimit store₃ last)
          have hfits₃ := hfits.mono (e₁.trans (e₂.trans e₃))
          have hkept₄ : Kept state.room store₂ (store₃.setLocal s₂.1 last) :=
            ((Kept.refl _ store₂).trans hkept₃ (e₁.trans (e₂.trans e₃)).room).setLocal hnew last
          have hrep₄ : Represents scope.vars memory₃ (store₃.setLocal s₂.1 last) :=
            hrep₂.kept hfits hkept₄ (vars_evalExpr hlast) hglobals₃
          have hcounting := completes_counting htidy hfits (e₂.trans (e₃.trans e₄)) hlater hlimit
            hroom₄ hnot (Store.setLocal_locals_same store₃ _ last) hrep₄ hbody
          exact hcounting.after (hruns₂.trans hruns₃)
            (hout₂.trans (Outside.of_kept hkept₄) (Nat.le_refl _))
            (e₁.trans (e₂.trans (e₃.trans e₄))).room

/-! ## Statements and blocks -/

mutual

/-- **STATEMENTS**: the code of a statement leads where the statement leads. -/
theorem completes_lowerStmt (rounds : Nat) : ∀ (stmt : Stmt) (scope : Scope) {state : State}
    {memory : Memory} {store : Store}, state.builder.Tidy → Fits state scope.vars →
    Later (lowerStmt scope stmt state).2 final → Represents scope.vars memory store →
    Completes world args final rounds scope ⟨state, store, memory.calls⟩
      (lowerStmt scope stmt state).2 (execStmt world rounds scope.loop.isSome stmt memory)
  -- by recursion on the statement, with the theorem of each form above
  | .assign target .assign value => by
      intro scope state memory store htidy hfits hlater hrep
      exact completes_assign htidy hfits hlater hrep
  | .assign target .addAssign value => by
      intro scope state memory store htidy hfits hlater hrep
      rw [lowerStmt] at hlater ⊢
      rw [execStmt]
      exact completes_update htidy hfits hlater hrep
  | .assign target .subAssign value => by
      intro scope state memory store htidy hfits hlater hrep
      rw [lowerStmt] at hlater ⊢
      rw [execStmt]
      exact completes_update htidy hfits hlater hrep
  | .call call => by
      intro scope state memory store htidy hfits hlater hrep
      exact completes_call htidy hfits hlater hrep
  | .cond cond thenBlock none => by
      intro scope state memory store htidy hfits hlater hrep
      exact completes_if htidy hfits hlater hrep (completes_lowerBlock rounds thenBlock)
  | .cond cond thenBlock (some elseBlock) => by
      intro scope state memory store htidy hfits hlater hrep
      exact completes_ifElse htidy hfits hlater hrep (completes_lowerBlock rounds thenBlock)
        (completes_lowerBlock rounds elseBlock)
  | .whileLoop cond body => by
      intro scope state memory store htidy hfits hlater hrep
      exact completes_while htidy hfits hlater hrep (completes_lowerBlock rounds body)
  | .forLoop var start bound body => by
      intro scope state memory store htidy hfits hlater hrep
      exact completes_for htidy hfits hlater hrep (completes_lowerBlock rounds body)
  | .ret value => by
      intro scope state memory store htidy hfits hlater hrep
      exact completes_ret htidy hfits hlater hrep
  | .breakLoop => by
      intro scope state memory store htidy hfits hlater hrep
      rw [lowerStmt] at hlater ⊢
      rw [execStmt]
      cases hloop : scope.loop with
      | none => exact ⟨store, hrep, Outside.refl _ _ _, Runs.refl _⟩
      | some exits =>
          rw [hloop] at hlater
          exact ⟨exits, store, hloop, hrep, Outside.refl _ _ _,
            jumps_jump world args store memory.calls htidy hlater⟩
  | .continueLoop => by
      intro scope state memory store htidy hfits hlater hrep
      rw [lowerStmt] at hlater ⊢
      rw [execStmt]
      cases hloop : scope.loop with
      | none => exact ⟨store, hrep, Outside.refl _ _ _, Runs.refl _⟩
      | some exits =>
          rw [hloop] at hlater
          exact ⟨exits, store, hloop, hrep, Outside.refl _ _ _,
            jumps_jump world args store memory.calls htidy hlater⟩
  | .block block => by
      intro scope state memory store htidy hfits hlater hrep
      rw [lowerStmt] at hlater ⊢
      rw [execStmt]
      exact completes_lowerBlock rounds block scope htidy hfits hlater hrep

/-- **BLOCKS** open their scope, run and close it. -/
theorem completes_lowerBlock (rounds : Nat) : ∀ block : Source.Block,
    BlockCompletes world args final rounds block
  | .mk names stmts => by
      intro scope state memory store htidy hfits hlater hrep
      rw [lowerBlock] at hlater ⊢
      rw [execBlock]
      let s₁ := build (·.constant 0) state
      let s₂ := declare s₁.1 names scope.vars s₁.2
      let inner : Scope := { scope with vars := s₂.1 }
      have e₁ : State.Extends state s₁.2 := extending_constant 0 state htidy
      have e₂ : State.Extends s₁.2 s₂.2 := extending_declare s₁.1 names scope.vars s₁.2 e₁.tidy
      have l₂ : Later s₂.2 final :=
        Later.of_extends (extending_lowerStmts inner stmts s₂.2 e₂.tidy) hlater
      have hzero : ∀ store, contents world args final store s₁.1 = some 0 :=
        contents_constant (Later.of_extends e₂ l₂)
      obtain ⟨store₂, hruns₂, hrep₂, hfits₂, hkept₂, hopens⟩ :=
        runs_declare hzero names scope.vars e₁.tidy (hfits.mono e₁) l₂ hrep
      have hstmts := completes_lowerStmts rounds stmts inner e₂.tidy hfits₂ hlater hrep₂
      have hopens' : Opens scope.vars s₂.1 state.room names.length :=
        ⟨hopens.drop, fun loc hloc =>
          (hopens.fresh loc hloc).imp_right (Nat.le_trans e₁.room)⟩
      exact hstmts.leaveScope hopens'
        ((runs_silent (silent_internLoc (.constant 0)) state store _).trans hruns₂)
        ((Kept.refl _ store).trans hkept₂ e₁.room) (e₁.trans e₂).room

/-- **LISTS OF STATEMENTS** run until control leaves. -/
theorem completes_lowerStmts (rounds : Nat) : ∀ (stmts : List Stmt) (scope : Scope)
    {state : State} {memory : Memory} {store : Store}, state.builder.Tidy →
    Fits state scope.vars → Later (lowerStmts scope stmts state).2 final →
    Represents scope.vars memory store →
    Completes world args final rounds scope ⟨state, store, memory.calls⟩
      (lowerStmts scope stmts state).2 (execStmts world rounds scope.loop.isSome stmts memory)
  | [] => by
      intro scope state memory store htidy hfits hlater hrep
      rw [lowerStmts, execStmts]
      exact ⟨store, hrep, Outside.refl _ _ _, Runs.refl _⟩
  | stmt :: rest => by
      intro scope state memory store htidy hfits hlater hrep
      rw [lowerStmts] at hlater ⊢
      rw [execStmts]
      let s₁ := lowerStmt scope stmt state
      have e₁ : State.Extends state s₁.2 := extending_lowerStmt scope stmt state htidy
      have l₁ : Later s₁.2 final :=
        Later.of_extends (extending_lowerStmts scope rest s₁.2 e₁.tidy) hlater
      have hstmt := completes_lowerStmt rounds stmt scope htidy hfits l₁ hrep
      -- by what the first statement does: only its end leads to the rest
      cases hresult : execStmt world rounds scope.loop.isSome stmt memory with
      | next memory₁ =>
          rw [hresult] at hstmt
          obtain ⟨store₁, hrep₁, hout₁, hruns₁⟩ := hstmt
          exact (completes_lowerStmts rounds rest scope e₁.tidy (hfits.mono e₁) hlater
            hrep₁).after hruns₁ hout₁ e₁.room
      | leftLoop memory₁ => rw [hresult] at hstmt; exact hstmt
      | nextRound memory₁ => rw [hresult] at hstmt; exact hstmt
      | ended ending => rw [hresult] at hstmt; exact hstmt
      | unfinished calls => rw [hresult] at hstmt; exact hstmt

end

end

end DecafBackend.Lowering
