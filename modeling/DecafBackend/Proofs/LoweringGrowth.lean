import DecafBackend.Lowering
import DecafBackend.Proofs.Construction

/-! # Lowering only adds

    Lowering an expression or a statement adds to the body and to the symbols,
    and it places no label but those it makes itself.

    * `Builder.Extends`, `State.Extends` — a later builder or state, with the
      labels of the earlier one as they were
    * `Extending` — steps of lowering that lead to such a state
    * `extending_lowerExpr`, `extending_lowerStmt` — expressions, statements -/

namespace DecafBackend

/-! ## Builders -/

namespace Builder

/-- A later builder that has left the labels of the earlier one alone. -/
structure Extends (early late : Builder) : Prop where
  grows : Grows early late
  labels : ∀ i, i < early.body.labels.size → late.body.labels[i]? = early.body.labels[i]?
  tidy : late.Tidy

namespace Extends

theorem refl {builder : Builder} (h : builder.Tidy) : Extends builder builder :=
  ⟨Grows.refl builder, fun _ _ => rfl, h⟩

/-- Growing twice is growing. -/
theorem trans {a b c : Builder} (h₁ : Extends a b) (h₂ : Extends b c) : Extends a c where
  grows := h₁.grows.trans h₂.grows
  labels i hi := by
    rw [h₂.labels i (Nat.lt_of_lt_of_le hi h₁.grows.labelCount)]
    exact h₁.labels i hi
  tidy := h₂.tidy

/-- A label that is older than the steps taken stays unplaced. -/
theorem unplaced {a b : Builder} (h : Extends a b) {label : Label}
    (hunplaced : a.body.labels[label.index]? = some none) :
    b.body.labels[label.index]? = some none := by
  obtain ⟨hlt, -⟩ := Array.getElem?_eq_some_iff.mp hunplaced
  rw [h.labels label.index hlt]
  exact hunplaced

/-- Placing a label that was made later. -/
theorem label {a b : Builder} (h : Extends a b) {label : Label}
    (hnew : a.body.labels.size ≤ label.index)
    (hunplaced : b.body.labels[label.index]? = some none) :
    Extends a (b.label label).2 where
  grows := h.grows.trans (grows_label h.tidy hunplaced)
  labels i hi := by
    rw [label_labels h.tidy, if_neg]
    · exact h.labels i hi
    · rintro ⟨rfl, -⟩
      omega
  tidy := tidy_label h.tidy label

end Extends

/-- A step that leaves the blocks and labels alone. -/
theorem extends_of_grows {early late : Builder} (htidy : early.Tidy) (hgrows : Grows early late)
    (hlabels : late.body.labels = early.body.labels)
    (hblocks : late.body.blocks = early.body.blocks)
    (hcurrent : late.current = early.current) : Extends early late where
  grows := hgrows
  labels i _ := by rw [hlabels]
  tidy :=
    { atEnd := fun block hblock => by
        rw [hblocks]
        exact htidy.atEnd block (hcurrent ▸ hblock)
      nonempty := fun block hblock => by
        rw [Body.stmtsOf_congr hblocks]
        exact htidy.nonempty block (hcurrent ▸ hblock) }

section

variable {builder : Builder} (htidy : builder.Tidy)
include htidy

/-- A created record. -/
theorem extends_create (record : Record) : Extends builder (builder.create record).2 :=
  extends_of_grows htidy (grows_create builder record) rfl rfl rfl

theorem extends_localVar (name : Symbol) : Extends builder (builder.localVar name).2 :=
  extends_of_grows htidy (grows_localVar builder name) rfl rfl rfl

/-- An interned location. -/
theorem extends_intern (location : Location) : Extends builder (builder.intern location).2 := by
  have hgrows := grows_intern builder location
  revert hgrows
  simp only [intern, Body.intern]
  cases builder.body.locations.findIdx? (· == location) with
  | some index => exact fun _ => Extends.refl htidy
  | none => exact fun hgrows => extends_of_grows htidy hgrows rfl rfl rfl

/-- A new label is not placed yet. -/
theorem extends_newLabel : Extends builder builder.newLabel.2 where
  grows := grows_newLabel builder
  labels i hi := by
    show (builder.body.labels.push none)[i]? = _
    rw [Array.getElem?_push, if_neg (by omega)]
  tidy := ⟨htidy.atEnd, htidy.nonempty⟩

theorem extends_binary (op : BinaryOp) (lhs rhs : Loc) :
    Extends builder (builder.binary op lhs rhs).2 :=
  have h₁ := extends_create htidy (.load lhs)
  have h₂ := extends_create h₁.tidy (.load rhs)
  (h₁.trans h₂).trans (extends_create h₂.tidy _)

theorem extends_unary (op : UnaryOp) (operand : Loc) :
    Extends builder (builder.unary op operand).2 :=
  have h₁ := extends_create htidy (.load operand)
  h₁.trans (extends_create h₁.tidy _)

/-- An appended record. -/
theorem extends_append (record : Record) : Extends builder (builder.append record).2 where
  grows := grows_append htidy.atEnd record
  labels i _ := by rw [append_labels]
  tidy := tidy_append htidy.atEnd record

theorem extends_copy (src dest : Loc) : Extends builder (builder.copy src dest).2 :=
  have h₁ := extends_create htidy (.load src)
  h₁.trans (extends_append h₁.tidy _)

theorem extends_branchIfZero (cond : Loc) (target : Label) :
    Extends builder (builder.branchIfZero cond target).2 :=
  have h₁ := extends_create htidy (.load cond)
  h₁.trans (extends_append h₁.tidy _)

theorem extends_ret (value : Option Loc) : Extends builder (builder.ret value).2 := by
  cases value with
  | none => exact extends_append htidy _
  | some loc =>
      have h₁ := extends_create htidy (.load loc)
      exact h₁.trans (extends_append h₁.tidy _)

theorem extends_callStmt (call : Inst) : Extends builder (builder.callStmt call) where
  grows := grows_place htidy.atEnd call false
  labels i _ := by rw [callStmt, place_labels]
  tidy := tidy_place htidy.atEnd call false

/-- The builder with one more parameter recorded. -/
def noteParam (builder : Builder) (loc : Loc) : Builder :=
  { builder with body := { builder.body with params := builder.body.params ++ [loc] } }

theorem extends_noteParam (loc : Loc) : Extends builder (builder.noteParam loc) :=
  extends_of_grows htidy (grows_of_blocks rfl rfl rfl id id) rfl rfl rfl

/-- A parameter is a location and a save into it. -/
theorem extends_param (name : Symbol) : Extends builder (builder.param name).2 := by
  have h₁ := extends_localVar htidy name
  have h₂ := extends_create h₁.tidy (.param (builder.localVar name).2.body.params.length)
  have h₃ := extends_noteParam h₂.tidy (builder.localVar name).1
  exact ((h₁.trans h₂).trans h₃).trans (extends_append h₃.tidy _)

end

end Builder

/-! ## Symbols -/

namespace SymbolPool

/-- A symbol that is found has the text it was looked up with. -/
theorem text?_of_find? {pool : SymbolPool} {text : String} {symbol : Symbol}
    (h : pool.find? text = some symbol) : pool.text? symbol = some text := by
  rw [find?] at h
  obtain ⟨index, hindex, rfl⟩ := Option.map_eq_some_iff.mp h
  obtain ⟨hlt, hsame, -⟩ := Array.findIdx?_eq_some_iff_getElem.mp hindex
  show pool.texts[index]? = some text
  rw [Array.getElem?_eq_getElem hlt, eq_of_beq hsame]

/-- An interned text can be read back. -/
theorem text?_intern (pool : SymbolPool) (text : String) :
    (pool.intern text).2.text? (pool.intern text).1 = some text := by
  rw [intern]
  cases h : pool.find? text with
  | some symbol => exact text?_of_find? h
  | none =>
      show (pool.texts.push text)[pool.texts.size]? = some text
      rw [Array.getElem?_push, if_pos rfl]

/-- Interning keeps the other texts. -/
theorem text?_intern_of_some {pool : SymbolPool} {text other : String} {symbol : Symbol}
    (h : pool.text? symbol = some other) : (pool.intern text).2.text? symbol = some other := by
  rw [intern]
  cases pool.find? text with
  | some symbol => exact h
  | none => exact Builder.getElem?_push_of_some h

end SymbolPool

/-! ## Lowering -/

namespace Lowering

open Source

/-- A later state, in which the labels of the earlier one are as they were. -/
structure State.Extends (early late : State) : Prop where
  builder : early.builder.Extends late.builder
  symbols : ∀ {symbol text}, early.symbols.text? symbol = some text →
    late.symbols.text? symbol = some text

namespace State.Extends

theorem refl {state : State} (h : state.builder.Tidy) : State.Extends state state :=
  ⟨Builder.Extends.refl h, id⟩

theorem trans {a b c : State} (h₁ : State.Extends a b) (h₂ : State.Extends b c) :
    State.Extends a c :=
  ⟨h₁.builder.trans h₂.builder, fun h => h₂.symbols (h₁.symbols h)⟩

theorem tidy {a b : State} (h : State.Extends a b) : b.builder.Tidy := h.builder.tidy

/-- Placing a label that was made later. -/
theorem label {a b : State} (h : State.Extends a b) {label : Label}
    (hnew : a.builder.body.labels.size ≤ label.index)
    (hunplaced : b.builder.body.labels[label.index]? = some none) :
    State.Extends a (emit (·.label label) b).2 :=
  ⟨h.builder.label hnew hunplaced, h.symbols⟩

end State.Extends

/-- A step of lowering that only adds. -/
def Extending {α : Type} (step : Lower α) : Prop :=
  ∀ state : State, state.builder.Tidy → state.Extends (step state).2

/-- A step after a step starts where the first one ends. -/
theorem bind_apply {α β : Type} (step : Lower α) (next : α → Lower β) (state : State) :
    (step >>= next) state = next (step state).1 (step state).2 := rfl

theorem extending_pure {α : Type} (a : α) : Extending (pure a : Lower α) :=
  fun _ htidy => State.Extends.refl htidy

/-- **STEPS ONE AFTER THE OTHER** only add to the body. -/
theorem Extending.bind {α β : Type} {step : Lower α} {next : α → Lower β} (h₁ : Extending step)
    (h₂ : ∀ a, Extending (next a)) : Extending (step >>= next) := by
  intro state htidy
  have hfirst := h₁ state htidy
  exact hfirst.trans (h₂ _ _ hfirst.tidy)

theorem extending_intern (text : String) : Extending (intern text) := fun _ htidy =>
  ⟨Builder.Extends.refl htidy, SymbolPool.text?_intern_of_some⟩

/-- A step of the builder that has a result. -/
theorem extending_build {α : Type} {step : Builder → α × Builder}
    (h : ∀ builder : Builder, builder.Tidy → builder.Extends (step builder).2) :
    Extending (build step) := fun state htidy => ⟨h state.builder htidy, id⟩

/-- A step of the builder that appends. -/
theorem extending_emit {α : Type} {step : Builder → α × Builder}
    (h : ∀ builder : Builder, builder.Tidy → builder.Extends (step builder).2) :
    Extending (emit step) := fun state htidy => ⟨h state.builder htidy, id⟩

theorem extending_constant (value : Word) : Extending (build (·.constant value)) :=
  extending_build fun _ htidy => Builder.extends_intern htidy _

theorem extending_newLabel : Extending (build (·.newLabel)) :=
  extending_build fun _ htidy => Builder.extends_newLabel htidy

theorem extending_binary (op : BinaryOp) (lhs rhs : Loc) :
    Extending (build (·.binary op lhs rhs)) :=
  extending_build fun _ htidy => Builder.extends_binary htidy op lhs rhs

theorem extending_unary (op : UnaryOp) (operand : Loc) :
    Extending (build (·.unary op operand)) :=
  extending_build fun _ htidy => Builder.extends_unary htidy op operand

theorem extending_copy (src dest : Loc) : Extending (emit (·.copy src dest)) :=
  extending_emit fun _ htidy => Builder.extends_copy htidy src dest

theorem extending_save (value : Inst) (dest : Loc) : Extending (emit (·.save value dest)) :=
  extending_emit fun _ htidy => Builder.extends_append htidy _

theorem extending_jump (target : Label) : Extending (emit (·.jump target)) :=
  extending_emit fun _ htidy => Builder.extends_append htidy _

theorem extending_branchIfZero (cond : Loc) (target : Label) :
    Extending (emit (·.branchIfZero cond target)) :=
  extending_emit fun _ htidy => Builder.extends_branchIfZero htidy cond target

/-- A new result. -/
theorem extending_freshResult : Extending freshResult := by
  intro state htidy
  have h₁ := extending_intern s!".t{state.nextResult}" state htidy
  exact ⟨h₁.builder.trans (Builder.extends_localVar h₁.tidy _), h₁.symbols⟩

/-- A name that is resolved. -/
theorem extending_resolve (scope : Scope) (name : String) : Extending (resolve scope name) := by
  rw [resolve]
  cases scope.vars.lookup name with
  | some loc => exact extending_pure loc
  | none =>
      exact (extending_intern name).bind fun symbol =>
        extending_build fun _ htidy => Builder.extends_intern htidy _

theorem extending_deliver (src : Loc) (target : Option Loc) : Extending (deliver src target) := by
  cases target with
  | none => exact extending_pure src
  | some dest => exact (extending_copy src dest).bind fun _ => extending_pure dest

theorem extending_targetOrFresh (target : Option Loc) : Extending (targetOrFresh target) := by
  cases target with
  | none => exact extending_freshResult
  | some dest => exact extending_pure dest

/-! ## Expressions -/

/-- A fresh label, as the state that made it has it. -/
theorem newLabel_unplaced (state : State) :
    (build (·.newLabel) state).2.builder.body.labels[
      (build (·.newLabel) state).1.index]? = some none := by
  show (state.builder.body.labels.push none)[state.builder.body.labels.size]? = some none
  rw [Array.getElem?_push, if_pos rfl]

theorem newLabel_index (state : State) :
    (build (·.newLabel) state).1.index = state.builder.body.labels.size := rfl

/-- A label that was made in between is newer than what was there before. -/
theorem State.Extends.newer {a b : State} (h : a.Extends b) :
    a.builder.body.labels.size ≤ (build (·.newLabel) b).1.index := h.builder.grows.labelCount

/-- A new label is none of those that exist. -/
theorem newLabel_ne {state : State} {label : Label}
    (h : state.builder.body.labels[label.index]? = some none) :
    label.index ≠ (build (·.newLabel) state).1.index := by
  obtain ⟨hlt, -⟩ := Array.getElem?_eq_some_iff.mp h
  rw [newLabel_index]
  exact Nat.ne_of_lt hlt

/-- Placing a label does not place another one. -/
theorem unplaced_label {state : State} {label other : Label} (htidy : state.builder.Tidy)
    (hne : label.index ≠ other.index)
    (h : state.builder.body.labels[other.index]? = some none) :
    (emit (·.label label) state).2.builder.body.labels[other.index]? = some none := by
  show (state.builder.label label).2.body.labels[other.index]? = some none
  rw [Builder.label_labels htidy, if_neg fun hsame => hne hsame.1]
  exact h

/-- Steps around a label of their own, which is placed at the end. -/
theorem extending_withLabel {α : Type} {steps : Label → Lower α}
    (h : ∀ label, Extending (steps label)) :
    Extending (do
      let label ← build (·.newLabel)
      let _ ← steps label
      emit (·.label label)) := by
  intro state htidy
  have hmake := extending_newLabel state htidy
  have hsteps := h (build (·.newLabel) state).1 _ hmake.tidy
  refine (hmake.trans hsteps).label ?_ ?_
  · exact Nat.le_of_eq (newLabel_index state).symm
  · exact hsteps.builder.unplaced (newLabel_unplaced state)

mutual

/-- **EXPRESSIONS** only add to the body. -/
theorem extending_lowerExpr (scope : Scope) :
    ∀ (expr : Expr) (target : Option Loc), Extending (lowerExpr scope expr target)
  -- by recursion on the expression, with a label of its own for each test in it
  | .int value, target => by
      rw [lowerExpr]
      exact (extending_constant value).bind fun loc => extending_deliver loc target
  | .bool value, target => by
      rw [lowerExpr]
      exact (extending_constant _).bind fun loc => extending_deliver loc target
  | .var name, target => by
      rw [lowerExpr]
      exact (extending_resolve scope name).bind fun loc => extending_deliver loc target
  | .binary (.strict op) lhs rhs, target => by
      rw [lowerExpr]
      refine (extending_targetOrFresh target).bind fun dest => ?_
      refine (extending_lowerExpr scope lhs none).bind fun left => ?_
      have hright : ∀ left, Extending (do
          let right ← lowerExpr scope rhs none
          let value ← build (·.binary op left right)
          emit (·.save value dest)
          return dest) := fun left =>
        (extending_lowerExpr scope rhs none).bind fun right =>
          (extending_binary op left right).bind fun value =>
            (extending_save value dest).bind fun _ => extending_pure dest
      cases rhs.hasCall with
      | true =>
          exact extending_freshResult.bind fun early =>
            (extending_copy left early).bind fun _ => hright early
      | false => exact hright left
  | .binary .and lhs rhs, target => by
      rw [lowerExpr]
      refine extending_freshResult.bind fun dest => ?_
      have hlabel := extending_withLabel fun done =>
        (extending_lowerExpr scope lhs (some dest)).bind fun _ =>
          (extending_branchIfZero dest done).bind fun _ =>
            extending_lowerExpr scope rhs (some dest)
      have hwhole := hlabel.bind fun _ => extending_deliver dest target
      simp only [bind_assoc] at hwhole
      exact hwhole
  | .binary .or lhs rhs, target => by
      rw [lowerExpr]
      refine extending_freshResult.bind fun dest => ?_
      have hlabel := extending_withLabel fun done =>
        (extending_lowerExpr scope lhs (some dest)).bind fun _ =>
          extending_freshResult.bind fun inverse =>
            (extending_unary .not dest).bind fun value =>
              (extending_save value inverse).bind fun _ =>
                (extending_branchIfZero inverse done).bind fun _ =>
                  extending_lowerExpr scope rhs (some dest)
      have hwhole := hlabel.bind fun _ => extending_deliver dest target
      simp only [bind_assoc] at hwhole
      exact hwhole
  | .unary op operand, target => by
      rw [lowerExpr]
      exact (extending_targetOrFresh target).bind fun dest =>
        (extending_lowerExpr scope operand none).bind fun loc =>
          (extending_unary op loc).bind fun value =>
            (extending_save value dest).bind fun _ => extending_pure dest
  | .call call, target => by
      rw [lowerExpr]
      exact (extending_targetOrFresh target).bind fun dest =>
        (extending_lowerCall scope call).bind fun value =>
          (extending_save value dest).bind fun _ => extending_pure dest

/-- Calls only add to the body. -/
theorem extending_lowerCall (scope : Scope) : ∀ call : Call, Extending (lowerCall scope call)
  | .mk name args isCallout => by
      rw [lowerCall]
      exact (extending_lowerArgs scope args).bind fun locs =>
        (extending_intern name).bind fun target =>
          extending_build fun _ htidy => Builder.extends_create htidy _

/-- Arguments only add to the body. -/
theorem extending_lowerArgs (scope : Scope) :
    ∀ args : List Arg, Extending (lowerArgs scope args)
  | [] => by
      rw [lowerArgs]
      exact extending_pure []
  | .text value :: rest => by
      rw [lowerArgs]
      exact (extending_intern value).bind fun symbol =>
        (extending_build fun _ htidy => Builder.extends_intern htidy _).bind fun loc =>
          (extending_lowerArgs scope rest).bind fun locs => extending_pure (loc :: locs)
  | .expr (.var name) :: rest => by
      rw [lowerArgs]
      have hrest : ∀ loc, Extending (do return loc :: (← lowerArgs scope rest)) := fun loc =>
        (extending_lowerArgs scope rest).bind fun locs => extending_pure (loc :: locs)
      cases rest.any Arg.hasCall with
      | true =>
          exact extending_freshResult.bind fun early =>
            (extending_resolve scope name).bind fun loc =>
              (extending_deliver loc (some early)).bind hrest
      | false => exact (extending_resolve scope name).bind hrest
  | .expr (.int value) :: rest
  | .expr (.bool value) :: rest
  | .expr (.call call) :: rest
  | .expr (.binary op lhs rhs) :: rest
  | .expr (.unary op operand) :: rest => by
      rw [lowerArgs]
      · exact (extending_lowerExpr scope _ none).bind fun loc =>
          (extending_lowerArgs scope rest).bind fun locs => extending_pure (loc :: locs)
      · exact nofun

end

/-! ## Statements -/

/-- Declarations only add to the body. -/
theorem extending_declare (zero : Loc) :
    ∀ (names : List String) (vars : List (String × Loc)), Extending (declare zero names vars)
  | [], vars => extending_pure vars
  | name :: rest, vars => by
      rw [declare]
      exact (extending_intern name).bind fun symbol =>
        (extending_build fun _ htidy => Builder.extends_localVar htidy symbol).bind fun loc =>
          (extending_copy zero loc).bind fun _ => extending_declare zero rest ((name, loc) :: vars)

/-- Steps between a branch over them and the code for the other case. -/
theorem extending_withTwoLabels {first : Label → Lower Unit} {second : Label → Lower Unit}
    {third : Lower Unit} (h₁ : ∀ label, Extending (first label))
    (h₂ : ∀ label, Extending (second label)) (h₃ : Extending third) :
    Extending (do
      let otherwise ← build (·.newLabel)
      first otherwise
      let done ← build (·.newLabel)
      second done
      emit (·.label otherwise)
      third
      emit (·.label done)) := by
  intro s₀ htidy
  let s₁ := build (·.newLabel) s₀
  let s₂ := first s₁.1 s₁.2
  let s₃ := build (·.newLabel) s₂.2
  let s₄ := second s₃.1 s₃.2
  let s₅ := emit (·.label s₁.1) s₄.2
  let s₆ := third s₅.2
  have e₁ : State.Extends s₀ s₁.2 := extending_newLabel s₀ htidy
  have e₂ : State.Extends s₁.2 s₂.2 := h₁ _ _ e₁.tidy
  have e₃ : State.Extends s₂.2 s₃.2 := extending_newLabel s₂.2 e₂.tidy
  have e₄ : State.Extends s₃.2 s₄.2 := h₂ _ _ e₃.tidy
  have unplaced₁ : s₂.2.builder.body.labels[s₁.1.index]? = some none :=
    e₂.builder.unplaced (newLabel_unplaced s₀)
  have e₅ : State.Extends s₀ s₅.2 :=
    (e₁.trans (e₂.trans (e₃.trans e₄))).label (Nat.le_of_eq (newLabel_index s₀).symm)
      ((e₃.trans e₄).builder.unplaced unplaced₁)
  have e₆ : State.Extends s₅.2 s₆.2 := h₃ _ e₅.tidy
  -- the label placed by now is another one, so the second one is still free
  have unplaced₃ : s₅.2.builder.body.labels[s₃.1.index]? = some none :=
    unplaced_label e₄.tidy (newLabel_ne unplaced₁) (e₄.builder.unplaced (newLabel_unplaced s₂.2))
  exact (e₅.trans e₆).label (e₁.trans e₂).newer (e₆.builder.unplaced unplaced₃)

/-- Rounds of a loop between its first and its last label. -/
theorem extending_betweenLabels {steps : Label → Label → Lower Unit}
    (h : ∀ top done, Extending (steps top done)) :
    Extending (do
      let top ← build (·.newLabel)
      let done ← build (·.newLabel)
      emit (·.label top)
      steps top done
      emit (·.label done)) := by
  intro s₀ htidy
  let s₁ := build (·.newLabel) s₀
  let s₂ := build (·.newLabel) s₁.2
  let s₃ := emit (·.label s₁.1) s₂.2
  let s₄ := steps s₁.1 s₂.1 s₃.2
  have e₁ : State.Extends s₀ s₁.2 := extending_newLabel s₀ htidy
  have e₂ : State.Extends s₁.2 s₂.2 := extending_newLabel s₁.2 e₁.tidy
  have unplaced₁ := newLabel_unplaced s₀
  have e₃ : State.Extends s₀ s₃.2 :=
    (e₁.trans e₂).label (Nat.le_of_eq (newLabel_index s₀).symm) (e₂.builder.unplaced unplaced₁)
  have e₄ : State.Extends s₃.2 s₄.2 := h _ _ _ e₃.tidy
  have unplaced₂ : s₃.2.builder.body.labels[s₂.1.index]? = some none :=
    unplaced_label e₂.tidy (newLabel_ne unplaced₁) (newLabel_unplaced s₁.2)
  exact (e₃.trans e₄).label e₁.newer (e₄.builder.unplaced unplaced₂)

/-- The same with a label for the end of each round. -/
theorem extending_betweenThreeLabels {round : Label → Label → Lower Unit}
    {after : Label → Lower Unit} (h₁ : ∀ next done, Extending (round next done))
    (h₂ : ∀ top, Extending (after top)) :
    Extending (do
      let top ← build (·.newLabel)
      let next ← build (·.newLabel)
      let done ← build (·.newLabel)
      emit (·.label top)
      round next done
      emit (·.label next)
      after top
      emit (·.label done)) := by
  intro s₀ htidy
  let s₁ := build (·.newLabel) s₀
  let s₂ := build (·.newLabel) s₁.2
  let s₃ := build (·.newLabel) s₂.2
  let s₄ := emit (·.label s₁.1) s₃.2
  let s₅ := round s₂.1 s₃.1 s₄.2
  let s₆ := emit (·.label s₂.1) s₅.2
  let s₇ := after s₁.1 s₆.2
  have e₁ : State.Extends s₀ s₁.2 := extending_newLabel s₀ htidy
  have e₂ : State.Extends s₁.2 s₂.2 := extending_newLabel s₁.2 e₁.tidy
  have e₃ : State.Extends s₂.2 s₃.2 := extending_newLabel s₂.2 e₂.tidy
  have unplaced₁ := newLabel_unplaced s₀
  have unplaced₂ := newLabel_unplaced s₁.2
  have e₄ : State.Extends s₀ s₄.2 :=
    (e₁.trans (e₂.trans e₃)).label (Nat.le_of_eq (newLabel_index s₀).symm)
      ((e₂.trans e₃).builder.unplaced unplaced₁)
  have e₅ : State.Extends s₄.2 s₅.2 := h₁ _ _ _ e₄.tidy
  have unplaced₂' : s₅.2.builder.body.labels[s₂.1.index]? = some none :=
    e₅.builder.unplaced
      (unplaced_label e₃.tidy (newLabel_ne unplaced₁) (e₃.builder.unplaced unplaced₂))
  have unplaced₃ : s₅.2.builder.body.labels[s₃.1.index]? = some none :=
    e₅.builder.unplaced
      (unplaced_label e₃.tidy (newLabel_ne (e₂.builder.unplaced unplaced₁))
        (newLabel_unplaced s₂.2))
  have e₆ : State.Extends s₀ s₆.2 := (e₄.trans e₅).label e₁.newer unplaced₂'
  have e₇ : State.Extends s₆.2 s₇.2 := h₂ _ _ e₆.tidy
  exact (e₆.trans e₇).label (e₁.trans e₂).newer
    (e₇.builder.unplaced (unplaced_label e₅.tidy (newLabel_ne unplaced₂) unplaced₃))

mutual

/-- **STATEMENTS** only add to the body. -/
theorem extending_lowerStmt (scope : Scope) :
    ∀ stmt : Stmt, Extending (lowerStmt scope stmt)
  | .assign target .assign value => by
      rw [lowerStmt]
      exact (extending_resolve scope target).bind fun dest =>
        (extending_lowerExpr scope value (some dest)).bind fun _ => extending_pure ()
  | .assign target .addAssign value => by
      rw [lowerStmt]
      exact (extending_resolve scope target).bind fun dest =>
        (extending_lowerExpr scope value none).bind fun right =>
          (extending_binary .add dest right).bind fun sum => extending_save sum dest
  | .assign target .subAssign value => by
      rw [lowerStmt]
      exact (extending_resolve scope target).bind fun dest =>
        (extending_lowerExpr scope value none).bind fun right =>
          (extending_binary .sub dest right).bind fun difference => extending_save difference dest
  | .call call => by
      rw [lowerStmt]
      exact (extending_lowerCall scope call).bind fun value =>
        extending_emit fun _ htidy => Builder.extends_callStmt htidy value
  | .cond cond thenBlock none => by
      rw [lowerStmt]
      refine (extending_lowerExpr scope cond none).bind fun test => ?_
      have hlabel := extending_withLabel fun done =>
        (extending_branchIfZero test done).bind fun _ => extending_lowerBlock scope thenBlock
      simp only [bind_assoc] at hlabel
      exact hlabel
  | .cond cond thenBlock (some elseBlock) => by
      rw [lowerStmt]
      refine (extending_lowerExpr scope cond none).bind fun test => ?_
      -- the label behind both branches is made at the end of the first one
      have hlabels := extending_withTwoLabels
        (fun otherwise => (extending_branchIfZero test otherwise).bind fun _ =>
          extending_lowerBlock scope thenBlock)
        extending_jump (extending_lowerBlock scope elseBlock)
      simp only [bind_assoc] at hlabels
      exact hlabels
  | .whileLoop cond body => by
      rw [lowerStmt]
      have hlabels := extending_betweenLabels fun top done =>
        (extending_lowerExpr scope cond none).bind fun test =>
          (extending_branchIfZero test done).bind fun _ =>
            (extending_lowerBlock { scope with loop := some ⟨top, done⟩ } body).bind fun _ =>
              extending_jump top
      simp only [bind_assoc] at hlabels
      exact hlabels
  | .forLoop var start bound body => by
      rw [lowerStmt]
      refine (extending_resolve scope var).bind fun counter => ?_
      refine extending_freshResult.bind fun limit => ?_
      refine (extending_lowerExpr scope start (some counter)).bind fun _ => ?_
      refine (extending_lowerExpr scope bound (some limit)).bind fun _ => ?_
      have hlabels := extending_betweenThreeLabels
        (fun next done => extending_freshResult.bind fun test =>
          (extending_binary .lt counter limit).bind fun less =>
            (extending_save less test).bind fun _ =>
              (extending_branchIfZero test done).bind fun _ =>
                extending_lowerBlock { scope with loop := some ⟨next, done⟩ } body)
        (fun top => (extending_constant 1).bind fun one =>
          (extending_binary .add counter one).bind fun sum =>
            (extending_save sum counter).bind fun _ => extending_jump top)
      simp only [bind_assoc] at hlabels
      exact hlabels
  | .ret none => by
      rw [lowerStmt]
      exact extending_emit fun _ htidy => Builder.extends_ret htidy none
  | .ret (some value) => by
      rw [lowerStmt]
      exact (extending_lowerExpr scope value none).bind fun loc =>
        extending_emit fun _ htidy => Builder.extends_ret htidy (some loc)
  | .breakLoop => by
      rw [lowerStmt]
      cases scope.loop with
      | some exits => exact extending_jump exits.done
      | none => exact extending_pure ()
  | .continueLoop => by
      rw [lowerStmt]
      cases scope.loop with
      | some exits => exact extending_jump exits.next
      | none => exact extending_pure ()
  | .block block => by
      rw [lowerStmt]
      exact extending_lowerBlock scope block

/-- Blocks only add to the body. -/
theorem extending_lowerBlock (scope : Scope) :
    ∀ block : Source.Block, Extending (lowerBlock scope block)
  | .mk locals stmts => by
      rw [lowerBlock]
      exact (extending_constant 0).bind fun zero =>
        (extending_declare zero locals scope.vars).bind fun vars =>
          extending_lowerStmts { scope with vars } stmts

/-- Lists of statements only add to the body. -/
theorem extending_lowerStmts (scope : Scope) :
    ∀ stmts : List Stmt, Extending (lowerStmts scope stmts)
  | [] => by
      rw [lowerStmts]
      exact extending_pure ()
  | stmt :: rest => by
      rw [lowerStmts]
      exact (extending_lowerStmt scope stmt).bind fun _ => extending_lowerStmts scope rest

end

end Lowering

end DecafBackend
