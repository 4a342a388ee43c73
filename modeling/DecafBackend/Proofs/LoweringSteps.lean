import DecafBackend.Proofs.AssigningBuilders
import DecafBackend.Proofs.LoweringMethods

/-! # Steps of lowering

    Every step of lowering keeps the builder sound, places the labels that it makes
    sooner or later, and reads no variable that may be unassigned.  A stage of
    lowering is a state with what is known to be assigned in it.

    * `Stage.Sound`, `Stage.Keeps`, `Stage.Follows` — stages between steps
    * `Readable`, `Writable`, `Known` — what a step may read, write and go to
    * `Chosen` — what is to be known at a label
    * `Steps`, `Steps.bind` — steps
    * `steps_attach` — a statement
    * `Steps.thenLabel` — a label behind some steps, where only what was known before
      them is known -/

namespace DecafBackend

/-- The text that a field or a literal text is named by. -/
def Location.symbol? : Location → Option Symbol
  | global name => some name
  | literal text => some text
  | _ => none

namespace SymbolPool

/-- A symbol of a text, the first one if there are several. -/
def Names (pool : SymbolPool) (symbol : Symbol) : Prop := ∃ text, pool.find? text = some symbol

/-- Interning keeps the symbols of the other texts. -/
theorem find?_intern_of_some {pool : SymbolPool} {text other : String} {symbol : Symbol}
    (h : pool.find? other = some symbol) : (pool.intern text).2.find? other = some symbol := by
  rw [intern]
  cases pool.find? text with
  | some _ => exact h
  | none =>
      rw [find?] at h ⊢
      obtain ⟨index, hindex, rfl⟩ := Option.map_eq_some_iff.mp h
      rw [Array.findIdx?_push, hindex]
      rfl

/-- An interned text is found. -/
theorem find?_intern (pool : SymbolPool) (text : String) :
    (pool.intern text).2.find? text = some (pool.intern text).1 := by
  rw [intern]
  cases h : pool.find? text with
  | some symbol => exact h
  | none =>
      have hnone : pool.texts.findIdx? (· == text) = none := Option.map_eq_none_iff.mp h
      show (Array.findIdx? (· == text) (pool.texts.push text)).map _ = _
      rw [Array.findIdx?_push, hnone]
      simp

end SymbolPool

namespace Builder

/-- A placed statement does not change the name of the body. -/
theorem place_name (builder : Builder) (inst : Inst) (ends : Bool) :
    (builder.place inst ends).body.name = builder.body.name := by
  cases hcur : builder.current with
  | some block => simp [place, hcur, Body.push]
  | none => simp [place, hcur, Body.push, Body.newBlock]

/-- A placed statement does not change the parameters. -/
theorem place_params (builder : Builder) (inst : Inst) (ends : Bool) :
    (builder.place inst ends).body.params = builder.body.params := by
  cases hcur : builder.current with
  | some block => simp [place, hcur, Body.push]
  | none => simp [place, hcur, Body.push, Body.newBlock]

theorem Records.name {early late : Builder} (h : Records early late) :
    late.body.name = early.body.name := by rw [h.same]

theorem Records.params {early late : Builder} (h : Records early late) :
    late.body.params = early.body.params := by rw [h.same]

end Builder

namespace Lowering

variable {bound : Nat}

/-! ## Stages -/

/-- A state of lowering, with what is known to be assigned in it. -/
structure Stage where
  state : State
  known : Knowledge

/-- What is built at a stage. -/
abbrev Stage.builder (stage : Stage) : Builder := stage.state.builder

/-- The body under construction at a stage. -/
abbrev Stage.body (stage : Stage) : Body := stage.state.builder.body

/-- The symbols of a stage. -/
abbrev Stage.symbols (stage : Stage) : SymbolPool := stage.state.symbols

/-- What is known to be assigned at a stage. -/
abbrev Stage.here (stage : Stage) : Set Loc := stage.known.here

/-- What is known to be assigned at a label. -/
abbrev Stage.atLabel (stage : Stage) (label : Label) : Set Loc := stage.known.atLabel label

/-- A later stage has all records, locations and symbols of the earlier one, and
    the same is known at its labels. -/
structure Stage.Keeps (early late : Stage) : Prop where
  builder : early.builder.Retains late.builder
  symbols : ∀ {text : String} {symbol : Symbol}, early.symbols.find? text = some symbol →
    late.symbols.find? text = some symbol
  name : late.body.name = early.body.name
  arity : early.body.params.length ≤ late.body.params.length
  atLabel : ∀ {label : Label}, label.index < early.body.labels.size →
    late.atLabel label = early.atLabel label

/-- The same, and no less is known to be assigned. -/
structure Stage.Follows (early late : Stage) : Prop extends Stage.Keeps early late where
  here : early.here ⊆ late.here

namespace Stage

theorem Keeps.refl (stage : Stage) : Stage.Keeps stage stage :=
  ⟨(Builder.Grows.refl stage.builder).retains, id, rfl, Nat.le_refl _, fun _ => rfl⟩

theorem Follows.refl (stage : Stage) : Stage.Follows stage stage :=
  ⟨Keeps.refl stage, Set.Subset.refl _⟩

/-- What is kept over both of two steps. -/
theorem Keeps.trans {a b c : Stage} (h₁ : Keeps a b) (h₂ : Keeps b c) : Keeps a c where
  builder := h₁.builder.trans h₂.builder
  symbols h := h₂.symbols (h₁.symbols h)
  name := h₂.name.trans h₁.name
  arity := Nat.le_trans h₁.arity h₂.arity
  atLabel h := (h₂.atLabel (Nat.lt_of_lt_of_le h h₁.builder.labelCount)).trans (h₁.atLabel h)

theorem Follows.trans {a b c : Stage} (h₁ : Follows a b) (h₂ : Follows b c) : Follows a c :=
  ⟨h₁.toKeeps.trans h₂.toKeeps, h₁.here.trans h₂.here⟩

/-- A symbol keeps its name. -/
theorem Keeps.names {early late : Stage} (h : Keeps early late) {symbol : Symbol}
    (hnames : early.symbols.Names symbol) : late.symbols.Names symbol :=
  hnames.imp fun _ hfind => h.symbols hfind

/-- A stage whose builder is sound: all that is called and named has a text, all
    labels are placed but some that are pending, and what is read is assigned. -/
structure Sound (bound : Nat) (pending : List Label) (stage : Stage) : Prop where
  builder : stage.builder.Sound bound
  named : ∀ {i : Nat} {location : Location} {symbol : Symbol},
    stage.body.locations[i]? = some location → location.symbol? = some symbol →
      stage.symbols.Names symbol
  called : ∀ {stmt : Inst} {command : Command} {symbol : Symbol}, stmt ∈ stage.body.stmts →
    stage.body.command? stmt = some command → command.callee? = some symbol →
      stage.symbols.Names symbol
  settled : ∀ i < stage.body.labels.size, (∃ block, stage.body.labels[i]? = some (some block)) ∨
    ∃ label ∈ pending, label.index = i
  unplaced : ∀ label ∈ pending, stage.body.labels[label.index]? = some none
  distinct : pending.Nodup
  assigns : ∃ entering, stage.builder.Assigns stage.known entering

end Stage

/-- A location that exists and is known to be assigned. -/
def Readable (stage : Stage) (loc : Loc) : Prop :=
  loc.index < stage.body.locations.size ∧ (stage.body.tracks loc = true → loc ∈ stage.here)

/-- A location that can be written. -/
def Writable (stage : Stage) (loc : Loc) : Prop :=
  ∃ location, stage.body.locations[loc.index]? = some location ∧ location.isWritable = true

/-- A location that can be read and written. -/
def Variable (stage : Stage) (loc : Loc) : Prop := Writable stage loc ∧ Readable stage loc

/-- A label that exists and can be jumped to. -/
def Known (stage : Stage) (label : Label) : Prop :=
  label.index < stage.body.labels.size ∧ stage.atLabel label ⊆ stage.here

/-- A label for which was chosen what is to be known there. -/
def Chosen (stage : Stage) (label : Label) (chosen : Set Loc) : Prop :=
  label.index < stage.body.labels.size ∧ stage.atLabel label = chosen

/-- What a scope names exists, and can be read, written and jumped to. -/
structure Scoped (scope : Scope) (stage : Stage) : Prop where
  vars : ∀ loc ∈ scope.vars.map Prod.snd, Variable stage loc
  loop : ∀ exits, scope.loop = some exits → Known stage exits.next ∧ Known stage exits.done

section

variable {early late : Stage} {loc : Loc}

/-- A writable location stays writable. -/
theorem Writable.keep (hloc : Writable early loc) (h : early.Keeps late) : Writable late loc := by
  obtain ⟨location, hlocation, hwritable⟩ := hloc
  exact ⟨location, h.builder.locations hlocation, hwritable⟩

theorem Writable.mono (hloc : Writable early loc) (h : early.Follows late) : Writable late loc :=
  hloc.keep h.toKeeps

/-- A readable location stays readable. -/
theorem Readable.mono (hloc : Readable early loc) (h : early.Follows late) : Readable late loc := by
  refine ⟨h.builder.location_lt hloc.1, fun htracks => h.here (hloc.2 ?_)⟩
  rw [← Builder.Assigns.tracks_eq h.builder hloc.1]
  exact htracks

theorem Variable.mono (hloc : Variable early loc) (h : early.Follows late) : Variable late loc :=
  ⟨hloc.1.mono h, hloc.2.mono h⟩

/-- A known label stays known. -/
theorem Known.mono {label : Label} (hlabel : Known early label) (h : early.Follows late) :
    Known late label := by
  refine ⟨Nat.lt_of_lt_of_le hlabel.1 h.builder.labelCount, ?_⟩
  rw [h.atLabel hlabel.1]
  exact hlabel.2.trans h.here

/-- A label keeps what was chosen for it. -/
theorem Chosen.mono {label : Label} {chosen : Set Loc} (hlabel : Chosen early label chosen)
    (h : early.Keeps late) : Chosen late label chosen :=
  ⟨Nat.lt_of_lt_of_le hlabel.1 h.builder.labelCount, (h.atLabel hlabel.1).trans hlabel.2⟩

/-- A label can be jumped to where all is known that was chosen for it. -/
theorem Chosen.known {label : Label} {chosen : Set Loc} (hlabel : Chosen early label chosen)
    (h : chosen ⊆ early.here) : Known early label :=
  ⟨hlabel.1, hlabel.2.trans_subset h⟩

/-- A scope stays a scope. -/
theorem Scoped.mono {scope : Scope} (hscope : Scoped scope early) (h : early.Follows late) :
    Scoped scope late :=
  ⟨fun loc hloc => (hscope.vars loc hloc).mono h,
    fun exits hexits => ⟨(hscope.loop exits hexits).1.mono h, (hscope.loop exits hexits).2.mono h⟩⟩

/-- What is assigned can be read. -/
theorem Writable.readable (h : Writable early loc) (hassigned : loc ∈ early.here) :
    Readable early loc := by
  obtain ⟨location, hlocation, -⟩ := h
  exact ⟨(Array.getElem?_eq_some_iff.mp hlocation).1, fun _ => hassigned⟩

/-- What is no variable can be read at any time. -/
theorem readable_of_location {location : Location}
    (h : early.body.locations[loc.index]? = some location)
    (hallocatable : location.isAllocatable = false) : Readable early loc := by
  refine ⟨(Array.getElem?_eq_some_iff.mp h).1, fun htracks => ?_⟩
  rw [Body.tracks, h, Option.any_some, hallocatable] at htracks
  cases htracks

end

/-! ## Steps -/

/-- A step from a sound stage with some pending labels leads to a sound stage with
    those that are left, in which something holds of the result. -/
def Steps {α : Type} (bound : Nat) (pending : List Label) (stage : Stage) (step : Lower α)
    (left : α → List Label) (post : α → Stage → Prop) : Prop :=
  stage.Sound bound pending → ∃ late : Stage, late.state = (step stage.state).2 ∧
    stage.Follows late ∧ late.Sound bound (left (step stage.state).1) ∧
      post (step stage.state).1 late

section

variable {α β : Type} {pending : List Label} {stage : Stage}

/-- **ONE STEP AFTER THE OTHER** keeps the stage sound. -/
theorem Steps.bind {step : Lower α} {next : α → Lower β} {middle : α → List Label}
    {left : β → List Label} {reached : α → Stage → Prop} {post : β → Stage → Prop}
    (h₁ : Steps bound pending stage step middle reached)
    (h₂ : ∀ a mid, stage.Follows mid → reached a mid →
      Steps bound (middle a) mid (next a) left post) :
    Steps bound pending stage (step >>= next) left post := by
  intro hsound
  obtain ⟨mid, hmid, hfollows, hmiddle, hreached⟩ := h₁ hsound
  obtain ⟨late, hlate, hfollows', hsound', hpost⟩ := h₂ _ mid hfollows hreached hmiddle
  rw [hmid] at hlate hsound' hpost
  exact ⟨late, hlate, hfollows.trans hfollows', hsound', hpost⟩

/-- Steps with less to say about their result. -/
theorem Steps.imp {step : Lower α} {left : α → List Label} {post post' : α → Stage → Prop}
    (h : Steps bound pending stage step left post)
    (himp : ∀ a late, stage.Follows late → post a late → post' a late) :
    Steps bound pending stage step left post' := by
  intro hsound
  obtain ⟨late, hlate, hfollows, hsound', hpost⟩ := h hsound
  exact ⟨late, hlate, hfollows, hsound', himp _ _ hfollows hpost⟩

/-- A result, with the labels that are pending then. -/
theorem steps_return {a : α} {left : α → List Label} {post : α → Stage → Prop} (h : post a stage) :
    Steps bound (left a) stage (pure a : Lower α) left post :=
  fun hsound => ⟨stage, rfl, Stage.Follows.refl stage, hsound, h⟩

/-- A result, with no label made or placed. -/
theorem steps_pure {a : α} {post : α → Stage → Prop} (h : post a stage) :
    Steps bound pending stage (pure a : Lower α) (fun _ => pending) post :=
  @steps_return _ _ _ _ (fun _ => pending) _ h

/-- A step that is no matter of the builder. -/
theorem steps_aside {step : Lower α} {post : α → Stage → Prop}
    (hbuilder : (step stage.state).2.builder = stage.builder)
    (hsymbols : ∀ {text symbol}, stage.symbols.find? text = some symbol →
      (step stage.state).2.symbols.find? text = some symbol)
    (hpost : post (step stage.state).1 ⟨(step stage.state).2, stage.known⟩) :
    Steps bound pending stage step (fun _ => pending) post := by
  intro hsound
  generalize hstep : (step stage.state).2 = state at hbuilder hsymbols hpost
  obtain ⟨symbols, builder, nextResult⟩ := state
  replace hbuilder : builder = stage.builder := hbuilder
  subst hbuilder
  let late : Stage := ⟨⟨symbols, stage.builder, nextResult⟩, stage.known⟩
  have hkeeps : stage.Keeps late :=
    ⟨(Builder.Grows.refl stage.builder).retains, hsymbols, rfl, Nat.le_refl _, fun _ => rfl⟩
  exact ⟨late, rfl, ⟨hkeeps, Set.Subset.refl _⟩,
    ⟨hsound.builder, fun hlocation hsymbol => hkeeps.names (hsound.named hlocation hsymbol),
      fun hstmt hcommand hsymbol => hkeeps.names (hsound.called hstmt hcommand hsymbol),
      hsound.settled, hsound.unplaced, hsound.distinct, hsound.assigns⟩, hpost⟩

/-- An interned text is a name. -/
theorem steps_intern (text : String) : Steps bound pending stage (intern text) (fun _ => pending)
    fun symbol late => late.symbols.Names symbol :=
  steps_aside rfl SymbolPool.find?_intern_of_some
    ⟨text, SymbolPool.find?_intern stage.symbols text⟩

/-- Statements do not change when locations or labels are added. -/
theorem called_of_retains {late : Stage} (hsound : stage.Sound bound pending)
    (hretains : stage.builder.Retains late.builder) (hblocks : late.body.blocks = stage.body.blocks)
    (hsymbols : late.symbols = stage.symbols) {stmt : Inst} {command : Command} {symbol : Symbol}
    (hstmt : stmt ∈ late.body.stmts) (hcommand : late.body.command? stmt = some command)
    (hcallee : command.callee? = some symbol) : late.symbols.Names symbol := by
  rw [Body.stmts_congr hblocks] at hstmt
  rw [hsymbols]
  exact hsound.called hstmt (hsound.builder.command_of hretains hstmt hcommand) hcallee

/-- A location more, or one that is there. -/
theorem steps_location {step : Builder → Loc × Builder} {location : Location}
    (hretains : stage.builder.Retains (step stage.builder).2)
    (hsound : stage.builder.Sound bound → (step stage.builder).2.Sound bound)
    (hsame : (step stage.builder).2 = { stage.builder with
      body := { stage.body with locations := (step stage.builder).2.body.locations } })
    (hlocation : (step stage.builder).2.body.locations[(step stage.builder).1.index]? =
      some location)
    (hothers : ∀ {i : Nat} {other : Location},
      (step stage.builder).2.body.locations[i]? = some other →
      stage.body.locations[i]? = some other ∨ other = location)
    (hnamed : ∀ symbol, location.symbol? = some symbol → stage.symbols.Names symbol) :
    Steps bound pending stage (build step) (fun _ => pending) fun loc late =>
      late.body.locations[loc.index]? = some location := by
  intro h
  have hblocks : (step stage.builder).2.body.blocks = stage.body.blocks := by rw [hsame]
  have hlabels : (step stage.builder).2.body.labels = stage.body.labels := by rw [hsame]
  have hname : (step stage.builder).2.body.name = stage.body.name := by rw [hsame]
  have hparams : (step stage.builder).2.body.params = stage.body.params := by rw [hsame]
  have hcurrent : (step stage.builder).2.current = stage.builder.current := by rw [hsame]
  refine ⟨⟨(build step stage.state).2, stage.known⟩, rfl,
    ⟨⟨hretains, id, hname, Nat.le_of_eq (congrArg _ hparams.symm), fun _ => rfl⟩,
      Set.Subset.refl _⟩, ?_, hlocation⟩
  constructor
  -- the code is the same, so all but the table of locations is as it was
  case builder => exact hsound h.builder
  case named =>
    intro i other symbol hother hsymbol
    rcases hothers hother with hold | rfl
    · exact h.named hold hsymbol
    · exact hnamed symbol hsymbol
  case called =>
    intro stmt command symbol
    exact @called_of_retains _ _ _ ⟨(build step stage.state).2, stage.known⟩ h hretains hblocks rfl
      _ _ _
  case settled =>
    show ∀ i < (step stage.builder).2.body.labels.size,
      (∃ block, (step stage.builder).2.body.labels[i]? = some (some block)) ∨ _
    rw [hlabels]
    exact h.settled
  case unplaced =>
    show ∀ label ∈ pending, (step stage.builder).2.body.labels[label.index]? = some none
    rw [hlabels]
    exact h.unplaced
  case distinct => exact h.distinct
  case assigns =>
    obtain ⟨entering, hassigns⟩ := h.assigns
    exact ⟨entering, hassigns.extended h.builder hretains hblocks hcurrent (hlabels ▸ id)
      (Set.Subset.refl _) fun _ _ => rfl⟩

/-- A new local variable is writable. -/
theorem steps_localVar (name : Symbol) : Steps bound pending stage (build (·.localVar name))
    (fun _ => pending) fun loc late => Writable late loc := by
  refine (steps_location (Builder.grows_localVar _ name).retains (fun h => h.localVar name) rfl
    ?_ ?_ fun _ h => ?_ : Steps bound pending stage _ _ fun loc late =>
      late.body.locations[loc.index]? = some (.localVar name)).imp ?_
  · show (stage.body.locations.push _)[stage.body.locations.size]? = _
    rw [Array.getElem?_push, if_pos rfl]
  · intro i other hother
    replace hother : (stage.body.locations.push (.localVar name))[i]? = some other := hother
    rw [Array.getElem?_push] at hother
    split at hother
    · exact Or.inr (Option.some.inj hother).symm
    · exact Or.inl hother
  · cases h
  · exact fun loc late _ hloc => ⟨_, hloc, rfl⟩

/-- A location that is interned is found in the table, and no other one changes. -/
theorem steps_locationOf {location : Location} (htemp : location ≠ .temp)
    (hnamed : ∀ symbol, location.symbol? = some symbol → stage.symbols.Names symbol) :
    Steps bound pending stage (build (·.intern location)) (fun _ => pending) fun loc late =>
      late.body.locations[loc.index]? = some location := by
  have hgrows := Builder.grows_intern stage.builder location
  refine steps_location hgrows.retains (fun h => h.intern htemp) ?_ ?_ ?_ hnamed
  · rw [Builder.intern, Body.intern]
    cases stage.body.locations.findIdx? (· == location) <;> rfl
  · rw [Builder.intern, Body.intern]
    cases hfound : stage.body.locations.findIdx? (· == location) with
    | some index =>
        obtain ⟨hlt, hsame, -⟩ := Array.findIdx?_eq_some_iff_getElem.mp hfound
        show stage.body.locations[index]? = some location
        rw [Array.getElem?_eq_getElem hlt, eq_of_beq hsame]
    | none =>
        show (stage.body.locations.push _)[stage.body.locations.size]? = _
        rw [Array.getElem?_push, if_pos rfl]
  · intro i other hother
    rw [Builder.intern, Body.intern] at hother
    cases hfound : stage.body.locations.findIdx? (· == location) with
    | some index =>
        rw [hfound] at hother
        exact Or.inl hother
    | none =>
        rw [hfound] at hother
        replace hother : (stage.body.locations.push location)[i]? = some other := hother
        rw [Array.getElem?_push] at hother
        split at hother
        · exact Or.inr (Option.some.inj hother).symm
        · exact Or.inl hother

/-- A constant is readable. -/
theorem steps_constant (value : Word) : Steps bound pending stage (build (·.constant value))
    (fun _ => pending) fun loc late => Readable late loc :=
  (steps_locationOf (fun h => by cases h) fun _ h => by cases h).imp
    fun _ _ _ h => readable_of_location h rfl

/-- The address of a text is readable. -/
theorem steps_literal {text : Symbol} (htext : stage.symbols.Names text) :
    Steps bound pending stage (build (·.literal text)) (fun _ => pending) fun loc late =>
      Readable late loc := by
  refine (steps_locationOf (fun h => by cases h) fun symbol h => ?_).imp
    fun _ _ _ h => readable_of_location h rfl
  exact Option.some.inj h ▸ htext

/-- A field is a variable. -/
theorem steps_global {name : Symbol} (hname : stage.symbols.Names name) :
    Steps bound pending stage (build (·.global name)) (fun _ => pending) fun loc late =>
      Variable late loc := by
  refine (steps_locationOf (fun h => by cases h) fun symbol h => ?_).imp
    fun loc late _ hloc => ⟨⟨_, hloc, rfl⟩, readable_of_location hloc rfl⟩
  exact Option.some.inj h ▸ hname

/-! ## Labels -/

/-- A label is made; what is to be known there can be chosen. -/
theorem steps_newLabel (chosen : Set Loc) : Steps bound pending stage (build (·.newLabel))
    (fun label => pending ++ [label]) fun label late =>
      Chosen late label chosen ∧ late.here = stage.here := by
  intro h
  let label : Label := ⟨stage.body.labels.size⟩
  let known : Knowledge :=
    { stage.known with
      atLabel := fun other => if other = label then chosen else stage.atLabel other }
  -- the labels made before keep what is known at them
  have hold : ∀ other : Label, other.index < stage.body.labels.size →
      known.atLabel other = stage.atLabel other := by
    intro other hlt
    refine if_neg fun heq => ?_
    rw [heq] at hlt
    exact Nat.lt_irrefl _ hlt
  have hlook : ∀ i : Nat, (build (·.newLabel) stage.state).2.builder.body.labels[i]? =
      if i = stage.body.labels.size then some none else stage.body.labels[i]? :=
    fun i => Array.getElem?_push
  have hsize : (build (·.newLabel) stage.state).2.builder.body.labels.size =
      stage.body.labels.size + 1 := Array.size_push none
  have hretains := (Builder.grows_newLabel stage.builder).retains
  refine ⟨⟨(build (·.newLabel) stage.state).2, known⟩, rfl,
    ⟨⟨hretains, id, rfl, Nat.le_refl _, fun hlt => hold _ hlt⟩, Set.Subset.refl _⟩, ?_, ?_⟩
  · constructor
    case builder => exact h.builder.newLabel
    case named => exact h.named
    case called =>
      intro stmt command symbol
      exact @called_of_retains _ _ _ ⟨(build (·.newLabel) stage.state).2, known⟩ h hretains rfl rfl
        _ _ _
    case settled =>
      intro i hi
      by_cases heq : i = stage.body.labels.size
      · exact Or.inr ⟨_, List.mem_append_right _ List.mem_cons_self, heq.symm⟩
      · rw [hlook, if_neg heq]
        replace hi : i < stage.body.labels.size + 1 := hsize ▸ hi
        rcases h.settled i (by omega) with hplaced | ⟨label, hlabel, rfl⟩
        · exact Or.inl hplaced
        · exact Or.inr ⟨label, List.mem_append_left _ hlabel, rfl⟩
    case unplaced =>
      intro other hother
      rw [hlook]
      split
      · rfl
      · next hne =>
          rcases List.mem_append.mp hother with hold | hnew
          · exact h.unplaced other hold
          · rw [List.mem_singleton.mp hnew] at hne
            exact absurd rfl hne
    case distinct =>
      rw [List.nodup_append]
      refine ⟨h.distinct, List.pairwise_singleton _ _, ?_⟩
      rintro label hlabel other hother rfl
      rw [List.mem_singleton.mp hother] at hlabel
      have hlt := (Array.getElem?_eq_some_iff.mp (h.unplaced _ hlabel)).1
      exact Nat.lt_irrefl _ hlt
    case assigns =>
      obtain ⟨entering, hassigns⟩ := h.assigns
      refine ⟨entering, hassigns.extended h.builder hretains rfl rfl ?_ (Set.Subset.refl _) hold⟩
      intro i block hplaced
      have hplaced' := (hlook i).symm.trans hplaced
      split at hplaced'
      · cases hplaced'
      · exact hplaced'
  · exact ⟨⟨hsize ▸ Nat.lt_succ_self _, if_pos rfl⟩, rfl⟩

/-- A pending label is placed; what is known at the label is known then. -/
theorem placeLabel (h : stage.Sound bound pending) {label : Label} {rest : List Label}
    (hpending : pending.Perm (label :: rest)) (hfits : stage.atLabel label ⊆ stage.here) :
    ∃ late : Stage, late.state = (emit (·.label label) stage.state).2 ∧ stage.Keeps late ∧
      late.here = stage.atLabel label ∧ late.Sound bound rest := by
  -- the label is the only one that is placed here, so the others stay as they are
  have hunplaced := h.unplaced label (hpending.mem_iff.mpr List.mem_cons_self)
  have hlook := Builder.label_labels h.builder.tidy label
  have hretains := (Builder.grows_label h.builder.tidy hunplaced).retains
  have hsize : ∀ {i : Nat}, i < (stage.builder.label label).2.body.labels.size →
      i < stage.body.labels.size := by
    intro i hi
    obtain ⟨value, hvalue⟩ : ∃ value, (stage.builder.label label).2.body.labels[i]? = some value :=
      ⟨_, Array.getElem?_eq_getElem hi⟩
    rw [hlook] at hvalue
    split at hvalue
    · next hself => exact hself.2
    · exact (Array.getElem?_eq_some_iff.mp hvalue).1
  have hdistinct := List.nodup_cons.mp (hpending.nodup_iff.mp h.distinct)
  refine ⟨⟨(emit (·.label label) stage.state).2, stage.known.from label⟩, rfl,
    ⟨hretains, id, ?_, ?_, fun _ => rfl⟩, rfl, ?_⟩
  · show (stage.builder.label label).2.body.name = _
    rw [Builder.label_eq h.builder.tidy]
    exact Builder.place_name _ _ _
  · show _ ≤ (stage.builder.label label).2.body.params.length
    rw [Builder.label_eq h.builder.tidy, show ((stage.builder.atNewBlock label).append
      (.label label)).2.body.params = stage.body.params from Builder.place_params _ _ _]
  · constructor
    case builder => exact h.builder.label hunplaced
    case named =>
      intro i location symbol hlocation
      refine h.named (i := i) ?_
      rw [← Builder.label_locations h.builder.tidy label]
      exact hlocation
    case called =>
      intro stmt command symbol hstmt hcommand hcallee
      rcases h.builder.mem_label hunplaced hstmt with hold | ⟨rfl, hlabel⟩
      · exact h.called hold (h.builder.command_of hretains hold hcommand) hcallee
      · cases hlabel.symm.trans hcommand
        cases hcallee
    case settled =>
      intro i hi
      have hlt := hsize hi
      show (∃ block, (stage.builder.label label).2.body.labels[i]? = some (some block)) ∨ _
      rw [hlook]
      split
      · exact Or.inl ⟨_, rfl⟩
      · next hother =>
          rcases h.settled i hlt with hplaced | ⟨other, hmem, rfl⟩
          · exact Or.inl hplaced
          · rcases List.mem_cons.mp (hpending.mem_iff.mp hmem) with rfl | hmem
            · exact absurd ⟨rfl, hlt⟩ hother
            · exact Or.inr ⟨other, hmem, rfl⟩
    case unplaced =>
      intro other hother
      show (stage.builder.label label).2.body.labels[other.index]? = some none
      rw [hlook, if_neg]
      · exact h.unplaced other (hpending.mem_iff.mpr (List.mem_cons_of_mem _ hother))
      · rintro ⟨heq, -⟩
        obtain ⟨i⟩ := label
        obtain ⟨j⟩ := other
        cases heq
        exact hdistinct.1 hother
    case distinct => exact hdistinct.2
    case assigns =>
      obtain ⟨entering, hassigns⟩ := h.assigns
      exact hassigns.label h.builder hunplaced hfits

/-- **A LABEL BEHIND SOME STEPS**: control may come to it without them, so what they
    assign is not known any more. -/
theorem Steps.thenLabel {step : Lower α} {next : α → Lower β} {label : Label} {chosen : Set Loc}
    {middle rest : α → List Label} {left : β → List Label} {reached : α → Stage → Prop}
    {post : β → Stage → Prop} (h₁ : Steps bound pending stage step middle reached)
    (hpending : ∀ a, (middle a).Perm (label :: rest a)) (hlabel : Chosen stage label chosen)
    (hbefore : stage.here ⊆ chosen)
    (hfits : ∀ a mid, stage.Follows mid → reached a mid → chosen ⊆ mid.here)
    (h₂ : ∀ a mid late, stage.Follows mid → reached a mid → mid.Keeps late →
      stage.Follows late → late.here = chosen → Steps bound (rest a) late (next a) left post) :
    Steps bound pending stage (step >>= fun a => emit (·.label label) >>= fun _ => next a)
      left post := by
  intro hsound
  obtain ⟨mid, hmid, hfollows, hmiddle, hreached⟩ := h₁ hsound
  have hsame := (hlabel.mono hfollows.toKeeps).2
  obtain ⟨placed, hplaced, hkeeps, hhere, hrest⟩ :=
    placeLabel hmiddle (hpending _) (hsame.trans_subset (hfits _ mid hfollows hreached))
  -- what is known behind the label is what was chosen, not what is known in front
  have hhere' : placed.here = chosen := hhere.trans hsame
  have hfollows' : stage.Follows placed :=
    ⟨hfollows.toKeeps.trans hkeeps, hbefore.trans hhere'.symm.subset⟩
  obtain ⟨late, hlate, hfollows'', hsound', hpost⟩ :=
    h₂ _ mid placed hfollows hreached hkeeps hfollows' hhere' hrest
  rw [hplaced, hmid] at hlate hsound' hpost
  exact ⟨late, hlate, hfollows'.trans hfollows'', hsound', hpost⟩

/-- The same at the end, where only what was known before is known. -/
theorem Steps.endLabel {step : Lower α} {label : Label} {middle : α → List Label}
    {rest : List Label} {reached : α → Stage → Prop}
    (h₁ : Steps bound pending stage step middle reached)
    (hpending : ∀ a, (middle a).Perm (label :: rest)) (hlabel : Chosen stage label stage.here) :
    Steps bound pending stage (step >>= fun _ => emit (·.label label)) (fun _ => rest)
      fun _ _ => True :=
  @Steps.thenLabel _ _ Unit _ _ _ (fun _ => pure ()) _ _ _ (fun _ => rest) _ _ _ h₁ hpending hlabel
    (Set.Subset.refl _) (fun _ _ f _ => f.here) fun _ _ _ _ _ _ _ _ => steps_pure trivial

/-- A pending label is placed where as much is known as at the label. -/
theorem steps_label {label : Label} {rest : List Label} (hpending : pending.Perm (label :: rest))
    (hsame : stage.atLabel label = stage.here) :
    Steps bound pending stage (emit (·.label label)) (fun _ => rest)
      fun _ late => late.here = stage.here := by
  intro hsound
  obtain ⟨late, hlate, hkeeps, hhere, hrest⟩ := placeLabel hsound hpending (le_of_eq hsame)
  have hsame' := hhere.trans hsame
  exact ⟨late, hlate, ⟨hkeeps, le_of_eq hsame'.symm⟩, hrest, hsame'⟩

/-! ## Statements -/

/-- A statement that is no label is attached to records that were made for it. -/
theorem steps_attach {step : Lower α} {early late : Builder} {stmt : Inst} {command : Command}
    (hstep : (step stage.state).2 =
      { stage.state with builder := late.place stmt command.endsBlock })
    (hearly : stage.builder.Sound bound → early.Sound bound)
    (hretains : stage.builder.Retains early)
    (hblocks : early.body.blocks = stage.body.blocks)
    (hcurrent : early.current = stage.builder.current)
    (hlabels : early.body.labels = stage.body.labels)
    (hname : early.body.name = stage.body.name)
    (harity : stage.body.params.length ≤ early.body.params.length)
    (hnamed : ∀ {i : Nat} {location : Location} {symbol : Symbol},
      early.body.locations[i]? = some location → location.symbol? = some symbol →
        stage.body.locations[i]? = some location)
    (hrecords : Builder.Records early late)
    (hcommand : late.body.command? stmt = some command)
    (hproper : command.Proper bound late.body stmt)
    (hcovered : command.Covered late.body stage.known stage.here stmt)
    (hcallee : ∀ symbol, command.callee? = some symbol → stage.symbols.Names symbol)
    (hnew : ∀ inst ∈ command.owned ++ [stmt], early.body.records.size ≤ inst.index)
    (hlabel : ∀ label, command ≠ .label label) {post : α → Stage → Prop}
    (hpost : post (step stage.state).1 ⟨(step stage.state).2, stage.known.behind command⟩) :
    Steps bound pending stage step (fun _ => pending) post := by
  intro h
  have hsound := (hearly h.builder).attach hrecords hcommand hproper hnew hlabel
  have hlate : late.AtEnd := by
    intro block hblock
    rw [hrecords.blocks]
    exact (hearly h.builder).tidy.atEnd block (hrecords.current ▸ hblock)
  have hsame : (late.place stmt command.endsBlock).body.labels = stage.body.labels :=
    ((Builder.place_labels _ _ _).trans hrecords.labels).trans hlabels
  have hretains' : stage.builder.Retains (late.place stmt command.endsBlock) :=
    (hretains.trans hrecords.retains).trans
      (Builder.grows_place hlate stmt command.endsBlock).retains
  refine ⟨⟨(step stage.state).2, stage.known.behind command⟩, rfl, ?_, ?_, hpost⟩
  · rw [hstep]
    refine ⟨⟨hretains', id, ?_, ?_, fun _ => rfl⟩, fun loc hloc => Or.inl hloc⟩
    · exact (Builder.place_name _ _ _).trans (hrecords.name.trans hname)
    · show _ ≤ (late.place stmt command.endsBlock).body.params.length
      rw [Builder.place_params, hrecords.params]
      exact harity
  · rw [hstep]
    constructor
    -- each part of soundness: the statement comes last, and nothing else changes
    case builder => exact hsound
    case named =>
      intro i location symbol hlocation hsymbol
      refine h.named (hnamed (i := i) ?_ hsymbol) hsymbol
      rw [← hrecords.locations, ← Builder.place_locations late stmt command.endsBlock]
      exact hlocation
    case called =>
      intro other command' symbol hother hcommand' hsymbol
      have hmem : other ∈ stage.body.stmts ++ [stmt] := by
        rw [← Body.stmts_congr (hrecords.blocks.trans hblocks),
          ← Builder.place_stmts hlate stmt command.endsBlock]
        exact hother
      rcases List.mem_append.mp hmem with hold | hlast
      · exact h.called hold (h.builder.command_of hretains' hold hcommand') hsymbol
      · rw [List.mem_singleton.mp hlast] at hcommand'
        have hsame' : late.body.command? stmt = some command' :=
          (Body.command?_congr (Builder.place_records late stmt command.endsBlock)).symm.trans
            hcommand'
        cases hcommand.symm.trans hsame'
        exact hcallee symbol hsymbol
    case settled =>
      show ∀ i < (late.place stmt command.endsBlock).body.labels.size,
        (∃ block, (late.place stmt command.endsBlock).body.labels[i]? = some (some block)) ∨ _
      rw [hsame]
      exact h.settled
    case unplaced =>
      show ∀ label ∈ pending,
        (late.place stmt command.endsBlock).body.labels[label.index]? = some none
      rw [hsame]
      exact h.unplaced
    case distinct => exact h.distinct
    case assigns =>
      obtain ⟨entering, hassigns⟩ := h.assigns
      have hlate' : late.Sound bound := (hearly h.builder).records hrecords
      have hbuilt : late.Assigns stage.known entering := by
        refine hassigns.extended h.builder (hretains.trans hrecords.retains)
          (hrecords.blocks.trans hblocks) (hrecords.current.trans hcurrent) ?_ (Set.Subset.refl _)
          fun _ _ => rfl
        rw [hrecords.labels, hlabels]
        exact id
      exact hbuilt.place hlate' hcommand hcovered

/-- The same without a new location. -/
theorem steps_statement {step : Lower α} {late : Builder} {stmt : Inst} {command : Command}
    (hstep : (step stage.state).2 =
      { stage.state with builder := late.place stmt command.endsBlock })
    (hrecords : Builder.Records stage.builder late)
    (hcommand : late.body.command? stmt = some command)
    (hproper : command.Proper bound late.body stmt)
    (hcovered : command.Covered late.body stage.known stage.here stmt)
    (hcallee : ∀ symbol, command.callee? = some symbol → stage.symbols.Names symbol)
    (hnew : ∀ inst ∈ command.owned ++ [stmt], stage.body.records.size ≤ inst.index)
    (hlabel : ∀ label, command ≠ .label label) :
    Steps bound pending stage step (fun _ => pending) fun _ late =>
      ∀ dest, command.dest? = some dest → dest ∈ late.here :=
  steps_attach hstep id (Builder.Grows.refl _).retains rfl rfl rfl rfl (Nat.le_refl _)
    (fun h _ => h) hrecords hcommand hproper hcovered hcallee hnew hlabel
    fun _ hdest => Or.inr hdest

end

end Lowering

end DecafBackend
