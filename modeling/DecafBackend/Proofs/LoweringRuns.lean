import DecafBackend.Proofs.LoweringGrowth
import DecafBackend.Proofs.TreeExecution

/-! # Runs of lowered code

    What a step of lowering has placed runs in the finished body from the
    cursor before the step to the cursor behind it.

    * `Point` — a cursor of lowering with what the finished body has there
    * `Runs`, `Jumps`, `Ends`, `Lasts` — runs of the finished body from a point
    * `runs_save`, `runs_copy`, `runs_branch`, `runs_label` — one statement
    * `Jumps.lands` — a jump to a label leads behind the label
    * `runs_test` — where a branch leads -/

namespace DecafBackend.Lowering

open Source

/-- The setting in which a lowered body runs: fields, callees and literal
    texts go by the texts of their symbols. -/
def settingOf (world : World) (symbols : SymbolPool) (args : Nat → Word) : Setting where
  arithmetic := world.arithmetic
  field symbol := (symbols.text? symbol).getD ""
  routine symbol := (symbols.text? symbol).getD ""
  literal symbol := world.literal ((symbols.text? symbol).getD "")
  environment := world.environment
  args := args

/-! ## Runs between cursors -/

/-- A point of lowering, with what the finished body has there. -/
structure Point where
  /-- What was lowered up to there. -/
  state : State
  /-- The contents of the locations. -/
  store : Store
  /-- The calls so far. -/
  calls : List CallEvent

/-- The end of lowering. -/
structure Later (state final : State) : Prop where
  grows : state.builder.Grows final.builder
  symbols : ∀ {symbol text}, state.symbols.text? symbol = some text →
    final.symbols.text? symbol = some text

/-- What comes later than a later state comes later. -/
theorem Later.of_extends {a b c : State} (h : a.Extends b) (hlater : Later b c) : Later a c :=
  ⟨h.builder.grows.trans hlater.grows, fun htext => hlater.symbols (h.symbols htext)⟩

/-- What was lowered before a label, if the label was not placed already. -/
theorem Later.of_label {state final : State} {label : Label} (htidy : state.builder.Tidy)
    (hunplaced : state.builder.body.labels[label.index]? = some none)
    (hlater : Later (emit (·.label label) state).2 final) : Later state final :=
  ⟨(Builder.grows_label htidy hunplaced).trans hlater.grows, hlater.symbols⟩

section

variable (world : World) (args : Nat → Word) (final : State)

/-- The runs of the finished body. -/
abbrev runs : System Config :=
  final.builder.body.execution (settingOf world final.symbols args)

/-- The contents of a location of the finished body. -/
abbrev contents (store : Store) (loc : Loc) : Option Word :=
  final.builder.body.read (settingOf world final.symbols args) store loc

/-- The store after a write to a location of the finished body. -/
abbrev written (store : Store) (loc : Loc) (word : Word) : Option Store :=
  final.builder.body.write (settingOf world final.symbols args) store loc word

/-- Control gets from one point to another one, in at least `k` steps. -/
def Runs (k : Nat) (p q : Point) : Prop :=
  ∀ block rest, Cursor final.builder.body p.state.builder block rest →
    ∃ n block' rest', k ≤ n ∧
      (runs world args final).run n ⟨block, rest, p.store, p.calls⟩ =
        .going ⟨block', rest', q.store, q.calls⟩ ∧
      Cursor final.builder.body q.state.builder block' rest'

/-- The run ends after a point. -/
def Ends (p : Point) (ending : Ending) : Prop :=
  ∀ block rest, Cursor final.builder.body p.state.builder block rest →
    ∃ n, (runs world args final).run n ⟨block, rest, p.store, p.calls⟩ = .ended ending

/-- Control gets from a point to a jump to a label. -/
def Jumps (p : Point) (label : Label) (store : Store) (calls : List CallEvent) : Prop :=
  ∀ block rest, Cursor final.builder.body p.state.builder block rest →
    ∃ n config, (runs world args final).run n ⟨block, rest, p.store, p.calls⟩ =
        final.builder.body.goTo config label ∧
      config.store = store ∧ config.calls = calls

/-- The run goes on for at least `k` steps after a point. -/
def Lasts (k : Nat) (p : Point) (calls : List CallEvent) : Prop :=
  ∀ block rest, Cursor final.builder.body p.state.builder block rest →
    ∃ n config, k ≤ n ∧
      (runs world args final).run n ⟨block, rest, p.store, p.calls⟩ = .going config ∧
      config.calls = calls

end

section

variable {world : World} {args : Nat → Word} {final : State}

theorem Runs.refl (p : Point) : Runs world args final 0 p p :=
  fun block rest h => ⟨0, block, rest, Nat.le_refl 0, rfl, h⟩

/-- Runs one after the other. -/
theorem Runs.trans {j k : Nat} {p q r : Point} (h₁ : Runs world args final j p q)
    (h₂ : Runs world args final k q r) : Runs world args final (j + k) p r := by
  intro block rest hcursor
  obtain ⟨m, block₁, rest₁, hjm, hm, hcursor₁⟩ := h₁ block rest hcursor
  obtain ⟨n, block₂, rest₂, hkn, hn, hcursor₂⟩ := h₂ block₁ rest₁ hcursor₁
  exact ⟨m + n, block₂, rest₂, by omega, by rw [System.run_add hm]; exact hn, hcursor₂⟩

/-- A run takes at least fewer steps too. -/
theorem Runs.mono {j k : Nat} {p q : Point} (hjk : j ≤ k) (h : Runs world args final k p q) :
    Runs world args final j p q := by
  intro block rest hcursor
  obtain ⟨n, block₁, rest₁, hkn, hn, hcursor₁⟩ := h block rest hcursor
  exact ⟨n, block₁, rest₁, by omega, hn, hcursor₁⟩

/-- A run to a point from which control ends. -/
theorem Runs.ends {k : Nat} {p q : Point} {e : Ending} (h₁ : Runs world args final k p q)
    (h₂ : Ends world args final q e) : Ends world args final p e := by
  intro block rest hcursor
  obtain ⟨m, block₁, rest₁, -, hm, hcursor₁⟩ := h₁ block rest hcursor
  obtain ⟨n, hn⟩ := h₂ block₁ rest₁ hcursor₁
  exact ⟨m + n, by rw [System.run_add hm]; exact hn⟩

/-- A run to a point from which control jumps. -/
theorem Runs.jumps {k : Nat} {p q : Point} {label : Label} {store : Store}
    {calls : List CallEvent} (h₁ : Runs world args final k p q)
    (h₂ : Jumps world args final q label store calls) :
    Jumps world args final p label store calls := by
  intro block rest hcursor
  obtain ⟨m, block₁, rest₁, -, hm, hcursor₁⟩ := h₁ block rest hcursor
  obtain ⟨n, config, hn, hsame⟩ := h₂ block₁ rest₁ hcursor₁
  exact ⟨m + n, config, by rw [System.run_add hm]; exact hn, hsame⟩

/-- A run to a point from which control goes on for long. -/
theorem Runs.lasts {j k : Nat} {p q : Point} {calls : List CallEvent}
    (h₁ : Runs world args final j p q) (h₂ : Lasts world args final k q calls) :
    Lasts world args final (j + k) p calls := by
  intro block rest hcursor
  obtain ⟨m, block₁, rest₁, hjm, hm, hcursor₁⟩ := h₁ block rest hcursor
  obtain ⟨n, config, hkn, hn, hcalls⟩ := h₂ block₁ rest₁ hcursor₁
  exact ⟨m + n, config, by omega, by rw [System.run_add hm]; exact hn, hcalls⟩

/-- What goes on for long goes on for less. -/
theorem Lasts.mono {j k : Nat} {p : Point} {calls : List CallEvent} (hjk : j ≤ k)
    (h : Lasts world args final k p calls) : Lasts world args final j p calls := by
  intro block rest hcursor
  obtain ⟨n, config, hkn, hn⟩ := h block rest hcursor
  exact ⟨n, config, by omega, hn⟩

/-- Steps that place nothing take no time. -/
theorem runs_of_quiet {state state' : State}
    (hblocks : state'.builder.body.blocks = state.builder.body.blocks)
    (hcurrent : state'.builder.current = state.builder.current) (store : Store)
    (calls : List CallEvent) :
    Runs world args final 0 ⟨state, store, calls⟩ ⟨state', store, calls⟩ :=
  fun block rest h => ⟨0, block, rest, Nat.le_refl 0, rfl, Cursor.congr hblocks hcurrent h⟩

/-! ## Statements that were placed -/

section

variable {state : State} {store : Store} {calls : List CallEvent}

/-- A statement that was appended runs. -/
theorem run_appended (world : World) (args : Nat → Word) (store : Store)
    (calls : List CallEvent) {record : Record} {builder : Builder} (htidy : builder.Tidy)
    (hgrows : (builder.append record).2.Grows final.builder) {block : Block} {rest : List Inst}
    (hcursor : Cursor final.builder.body builder block rest) :
    ∃ n block' rest', (runs world args final).run (n + 1) ⟨block, rest, store, calls⟩ =
        final.builder.body.stepOver (settingOf world final.symbols args)
          ⟨block', rest', store, calls⟩ record ∧
      (record.isTerminator = false →
        Cursor final.builder.body (builder.append record).2 block' rest') :=
  Cursor.run_append _ htidy.atEnd hgrows ⟨block, rest, store, calls⟩ hcursor

/-- A save writes the value it has evaluated. -/
theorem runs_save {value : Inst} {dest : Loc} {reached : Body.Reached} {store' : Store}
    (htidy : state.builder.Tidy) (hlater : Later (emit (·.save value dest) state).2 final)
    (hvalue : final.builder.body.evaluateAt (settingOf world final.symbols args) store calls
      value = .ok reached)
    (hwrite : written world args final reached.store dest reached.value = some store') :
    Runs world args final 1 ⟨state, store, calls⟩
      ⟨(emit (·.save value dest) state).2, store', reached.calls⟩ := by
  intro block rest hcursor
  obtain ⟨n, block', rest', hrun, hnext⟩ :=
    run_appended world args store calls htidy
      hlater.grows hcursor
  refine ⟨n + 1, block', rest', Nat.le_add_left 1 n, ?_, hnext rfl⟩
  rw [hrun]
  simp only [Body.stepOver, hvalue, hwrite]

/-- A save whose value traps ends the run. -/
theorem ends_save {value : Inst} {dest : Loc} {ending : Ending}
    (htidy : state.builder.Tidy) (hlater : Later (emit (·.save value dest) state).2 final)
    (hvalue : final.builder.body.evaluateAt (settingOf world final.symbols args) store calls
      value = .error ending) :
    Ends world args final ⟨state, store, calls⟩ ending := by
  intro block rest hcursor
  obtain ⟨n, block', rest', hrun, -⟩ :=
    run_appended world args store calls htidy
      hlater.grows hcursor
  refine ⟨n + 1, ?_⟩
  rw [hrun]
  simp only [Body.stepOver, hvalue]

/-- The record that a step of a builder made last. -/
theorem records_create {builder : Builder} {record : Record}
    (hgrows : (builder.create record).2.Grows final.builder) :
    final.builder.body.records[(builder.create record).1.index]? = some record := by
  refine hgrows.records ?_
  show (builder.body.records.push record)[builder.body.records.size]? = _
  rw [Array.getElem?_push, if_pos rfl]

/-- An operand that is loaded is what its location contains. -/
theorem operand_load {builder : Builder} {loc : Loc}
    (hgrows : (builder.load loc).2.Grows final.builder) :
    final.builder.body.operand (settingOf world final.symbols args) store (builder.load loc).1 =
      contents world args final store loc := by
  rw [Body.operand, show final.builder.body.records[(builder.load loc).1.index]? =
    some (.load loc) from records_create hgrows]

/-- The value of a load. -/
theorem evaluateAt_load {builder : Builder} {loc : Loc} {word : Word}
    (hgrows : (builder.load loc).2.Grows final.builder)
    (hread : contents world args final store loc = some word) :
    final.builder.body.evaluateAt (settingOf world final.symbols args) store calls
      (builder.load loc).1 = .ok ⟨word, store, calls⟩ := by
  rw [Body.evaluateAt, show final.builder.body.records[(builder.load loc).1.index]? =
    some (.load loc) from records_create hgrows]
  simp only [Body.evaluate, Body.compute, hread, Option.elim]

/-- The value of a unary operator. -/
theorem evaluateAt_unary (calls : List CallEvent) {op : UnaryOp} {loc : Loc} {word : Word}
    (hlater : Later (build (·.unary op loc) state).2 final)
    (hread : contents world args final store loc = some word) :
    final.builder.body.evaluateAt (settingOf world final.symbols args) store calls
      (build (·.unary op loc) state).1 = .ok ⟨op.apply word, store, calls⟩ := by
  have hload : (state.builder.load loc).2.Grows final.builder :=
    (Builder.grows_create _ _).trans hlater.grows
  rw [Body.evaluateAt, show final.builder.body.records[
    (build (·.unary op loc) state).1.index]? = some (.unary op (state.builder.load loc).1)
    from records_create hlater.grows]
  simp only [Body.evaluate, Body.compute, operand_load hload, hread]

/-- A computed value, or the end of the run. -/
def computed (store : Store) (calls : List CallEvent) : Option Word → Except Ending Body.Reached
  | some word => .ok ⟨word, store, calls⟩
  | none => .error ⟨.aborted .trap, store.globals, calls⟩

/-- The value of a binary operator, which may trap. -/
theorem evaluateAt_binary (calls : List CallEvent) {op : BinaryOp} {lhs rhs : Loc} {a b : Word}
    (hlater : Later (build (·.binary op lhs rhs) state).2 final)
    (hleft : contents world args final store lhs = some a)
    (hright : contents world args final store rhs = some b) :
    final.builder.body.evaluateAt (settingOf world final.symbols args) store calls
      (build (·.binary op lhs rhs) state).1 =
        computed store calls (world.arithmetic.apply op a b) := by
  let first := (state.builder.load lhs)
  let second := (first.2.load rhs)
  have hsecond : second.2.Grows final.builder := (Builder.grows_create _ _).trans hlater.grows
  have hfirst : first.2.Grows final.builder := (Builder.grows_create _ _).trans hsecond
  rw [Body.evaluateAt, show final.builder.body.records[
    (build (·.binary op lhs rhs) state).1.index]? = some (.binary op first.1 second.1)
    from records_create hlater.grows]
  simp only [Body.evaluate, Body.compute]
  rw [operand_load hfirst, operand_load hsecond, hleft, hright]
  have hworld : (settingOf world final.symbols args).arithmetic = world.arithmetic := rfl
  rw [hworld]
  dsimp only
  cases world.arithmetic.apply op a b with
  | some word => rfl
  | none => rfl

/-- A copy writes what the source contains. -/
theorem runs_copy {src dest : Loc} {word : Word} {store' : Store} (htidy : state.builder.Tidy)
    (hlater : Later (emit (·.copy src dest) state).2 final)
    (hread : contents world args final store src = some word)
    (hwrite : written world args final store dest word = some store') :
    Runs world args final 1 ⟨state, store, calls⟩
      ⟨(emit (·.copy src dest) state).2, store', calls⟩ := by
  have hload : (state.builder.load src).2.Tidy := ⟨htidy.atEnd, htidy.nonempty⟩
  have hgrows : (state.builder.load src).2.Grows final.builder :=
    (Builder.grows_append hload.atEnd _).trans hlater.grows
  let loaded := build (·.load src) state
  have hlater' : Later (emit (·.save loaded.1 dest) loaded.2).2 final := hlater
  have hsave : Runs world args final 1 ⟨loaded.2, store, calls⟩
      ⟨(emit (·.save loaded.1 dest) loaded.2).2, store', calls⟩ :=
    runs_save hload hlater' (evaluateAt_load hgrows hread) hwrite
  exact (runs_of_quiet rfl rfl store calls).trans hsave

/-- Control goes through a branch if the condition is not zero. -/
theorem runs_branch (calls : List CallEvent) {cond : Loc} {label : Label} {word : Word}
    (htidy : state.builder.Tidy)
    (hlater : Later (emit (·.branchIfZero cond label) state).2 final)
    (hread : contents world args final store cond = some word) (hword : word ≠ 0) :
    Runs world args final 1 ⟨state, store, calls⟩
      ⟨(emit (·.branchIfZero cond label) state).2, store, calls⟩ := by
  intro block rest hcursor
  -- the load takes no step, since nothing is placed for it
  have hload : (state.builder.load cond).2.Tidy := ⟨htidy.atEnd, htidy.nonempty⟩
  have hgrows : (state.builder.load cond).2.Grows final.builder :=
    (Builder.grows_append hload.atEnd _).trans hlater.grows
  obtain ⟨n, block', rest', hrun, hnext⟩ :=
    run_appended world args store calls hload
      hlater.grows (Cursor.congr rfl rfl hcursor)
  refine ⟨n + 1, block', rest', Nat.le_add_left 1 n, ?_, hnext rfl⟩
  have hop : final.builder.body.operand (settingOf world final.symbols args) store
      (state.builder.load cond).1 = some word := (operand_load hgrows).trans hread
  rw [hrun]
  show (match final.builder.body.operand _ store (state.builder.load cond).1 with
    | some word => _
    | none => _) = _
  rw [hop]
  exact if_neg hword

/-- Control jumps if the condition is zero. -/
theorem jumps_branch (calls : List CallEvent) {cond : Loc} {label : Label}
    (htidy : state.builder.Tidy)
    (hlater : Later (emit (·.branchIfZero cond label) state).2 final)
    (hread : contents world args final store cond = some 0) :
    Jumps world args final ⟨state, store, calls⟩ label store calls := by
  intro block rest hcursor
  have hload : (state.builder.load cond).2.Tidy := ⟨htidy.atEnd, htidy.nonempty⟩
  have hgrows : (state.builder.load cond).2.Grows final.builder :=
    (Builder.grows_append hload.atEnd _).trans hlater.grows
  obtain ⟨n, block', rest', hrun, hnext⟩ :=
    run_appended world args store calls hload
      hlater.grows (Cursor.congr rfl rfl hcursor)
  refine ⟨n + 1, ⟨block', rest', store, calls⟩, ?_, rfl, rfl⟩
  have hop : final.builder.body.operand (settingOf world final.symbols args) store
      (state.builder.load cond).1 = some 0 := (operand_load hgrows).trans hread
  rw [hrun]
  show (match final.builder.body.operand _ store (state.builder.load cond).1 with
    | some word => _
    | none => _) = _
  rw [hop]
  exact if_pos rfl

/-- A jump jumps. -/
theorem jumps_jump (world : World) (args : Nat → Word) (store : Store)
    (calls : List CallEvent) {label : Label} (htidy : state.builder.Tidy)
    (hlater : Later (emit (·.jump label) state).2 final) :
    Jumps world args final ⟨state, store, calls⟩ label store calls := by
  intro block rest hcursor
  obtain ⟨n, block', rest', hrun, -⟩ :=
    run_appended world args store calls htidy
      hlater.grows hcursor
  exact ⟨n + 1, ⟨block', rest', store, calls⟩, hrun, rfl, rfl⟩

/-- Control comes through a label. -/
theorem runs_label (world : World) (args : Nat → Word) (store : Store)
    (calls : List CallEvent) {label : Label} (htidy : state.builder.Tidy)
    (hlater : Later (emit (·.label label) state).2 final) :
    Runs world args final 1 ⟨state, store, calls⟩
      ⟨(emit (·.label label) state).2, store, calls⟩ := by
  intro block rest hcursor
  obtain ⟨n, block', rest', hrun, hnext⟩ :=
    Cursor.run_label (settingOf world final.symbols args) htidy hlater.grows
      ⟨block, rest, store, calls⟩ hcursor
  exact ⟨n + 1, block', rest', Nat.le_add_left 1 n, hrun, hnext⟩

/-- A jump to a label leads behind the label. -/
theorem Jumps.lands {p : Point} {label : Label} (htidy : state.builder.Tidy)
    (hunplaced : state.builder.body.labels[label.index]? = some none)
    (hlater : Later (emit (·.label label) state).2 final)
    (hjumps : Jumps world args final p label store calls) :
    Runs world args final 1 p ⟨(emit (·.label label) state).2, store, calls⟩ := by
  intro block rest hcursor
  obtain ⟨m, config, hm, hstore, hcalls⟩ := hjumps block rest hcursor
  obtain ⟨start, n, block', rest', hgoTo, hrun, hnext⟩ :=
    Cursor.goTo_label (settingOf world final.symbols args) htidy hunplaced
      hlater.grows config
  rw [hgoTo] at hm
  refine ⟨m + (n + 1), block', rest', by omega, ?_, hnext⟩
  rw [System.run_add hm, hrun, hstore, hcalls]

/-- A branch leads on, or behind its label if the word it tests is zero. -/
theorem runs_test {late : State} {cond : Loc} {label : Label} {word : Word}
    (htidy : state.builder.Tidy)
    (hbranch : Later (emit (·.branchIfZero cond label) state).2 final)
    (hread : contents world args final store cond = some word) (hlate : late.builder.Tidy)
    (hunplaced : late.builder.body.labels[label.index]? = some none)
    (hlabel : Later (emit (·.label label) late).2 final) :
    Runs world args final 1 ⟨state, store, calls⟩
      ⟨if word = 0 then (emit (·.label label) late).2
          else (emit (·.branchIfZero cond label) state).2,
        store, calls⟩ := by
  -- either way control comes behind the label or behind the branch
  by_cases hword : word = 0
  · subst hword
    rw [if_pos rfl]
    exact (jumps_branch calls htidy hbranch hread).lands hlate hunplaced hlabel
  · rw [if_neg hword]
    exact runs_branch calls htidy hbranch hread hword

end

end

end DecafBackend.Lowering
