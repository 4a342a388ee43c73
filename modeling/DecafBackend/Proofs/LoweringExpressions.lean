import DecafBackend.Proofs.LoweringRuns

/-! # Lowered expressions

    Lowered expressions compute what the tree computes.  The variables in scope
    are held by their locations all the while: what an expression writes, apart
    from its target, is new.

    * `Holds`, `Represents` — locations that hold the variables in scope
    * `Kept` — old variables of the method are as they were
    * `Arrives` — a value that comes to a target, or to a location of its own
    * `Expresses` — what is asked of an expression wherever it stands
    * `evaluates_lowerExpr`, `supplies_lowerArgs` — expressions and arguments -/

namespace DecafBackend.Lowering

open Source

/-! ## Variables in scope -/

/-- The locations of the variables in scope hold their values. -/
inductive Holds (store : Store) : List (String × Loc) → List (String × Word) → Prop
  | nil : Holds store [] []
  | cons {name : String} {loc : Loc} {word : Word} {vars : List (String × Loc)}
      {words : List (String × Word)} (first : store.locals loc = some word)
      (rest : Holds store vars words) : Holds store ((name, loc) :: vars) ((name, word) :: words)

/-- What a name is looked up as is one of the locations in scope. -/
theorem mem_of_lookup {vars : List (String × Loc)} {name : String} {loc : Loc}
    (h : vars.lookup name = some loc) : loc ∈ vars.map Prod.snd := by
  obtain ⟨before, after, rfl, -⟩ := List.lookup_eq_some_iff.mp h
  exact List.mem_map_of_mem (f := Prod.snd) (List.mem_append_right _ List.mem_cons_self)

namespace Holds

variable {store : Store} {vars : List (String × Loc)} {words : List (String × Word)}

/-- A name in scope has the same value on both sides. -/
theorem lookup (h : Holds store vars words) (name : String) :
    match vars.lookup name with
    | some loc => ∃ word, words.lookup name = some word ∧ store.locals loc = some word
    | none => words.lookup name = none := by
  induction h with
  | nil => rfl
  | @cons other loc word vars words first rest ih =>
      simp only [List.lookup_cons]
      cases name == other with
      | true => exact ⟨word, rfl, first⟩
      | false => exact ih

/-- Variables hold their values as long as their locations do. -/
theorem congr (h : Holds store vars words) {store' : Store}
    (hsame : ∀ loc ∈ vars.map Prod.snd, store'.locals loc = store.locals loc) :
    Holds store' vars words := by
  induction h with
  | nil => exact .nil
  | cons first rest ih =>
      refine .cons ?_ (ih fun loc hloc => hsame loc (List.mem_cons_of_mem _ hloc))
      rw [hsame _ List.mem_cons_self]
      exact first

/-- A variable gets a new value. -/
theorem assign (h : Holds store vars words) (hdistinct : (vars.map Prod.snd).Nodup)
    {name : String} {loc : Loc} (hloc : vars.lookup name = some loc) (word : Word) :
    Holds (store.setLocal loc word) vars (assignVar name word words) := by
  induction h with
  | nil => cases hloc
  | @cons other first old vars words hold rest ih =>
      rw [List.map_cons, List.nodup_cons] at hdistinct
      rw [List.lookup_cons] at hloc
      rw [assignVar]
      cases hname : name == other with
      | true =>
          rw [hname] at hloc
          cases hloc
          refine .cons (Store.setLocal_locals_same _ _ _) (rest.congr fun loc hloc => ?_)
          refine Store.setLocal_locals_other ?_ _ _
          rintro rfl
          exact hdistinct.1 hloc
      | false =>
          rw [hname] at hloc
          have hmem := mem_of_lookup hloc
          refine .cons ?_ (ih hdistinct.2 hloc)
          rw [Store.setLocal_locals_other]
          · exact hold
          · rintro rfl
            exact hdistinct.1 hmem

/-- What is left of a scope holds what is left of the values. -/
theorem drop (h : Holds store vars words) (count : Nat) :
    Holds store (vars.drop count) (words.drop count) := by
  induction h generalizing count with
  | nil => simpa using Holds.nil
  | cons first rest ih =>
      cases count with
      | zero => exact .cons first rest
      | succ count => exact ih count

end Holds

/-- The store holds the variables in scope and the fields. -/
structure Represents (vars : List (String × Loc)) (memory : Memory) (store : Store) : Prop where
  vars : Holds store vars memory.vars
  globals : store.globals = memory.globals

/-- The variables in scope have locations of their own. -/
structure Fits (state : State) (vars : List (String × Loc)) : Prop where
  distinct : (vars.map Prod.snd).Nodup
  isLocal : ∀ loc ∈ vars.map Prod.snd,
    ∃ name, state.builder.body.locations[loc.index]? = some (.localVar name)

/-- Locations stay in scope while the body grows. -/
theorem Fits.mono {early late : State} {vars : List (String × Loc)} (h : Fits early vars)
    (hextends : early.Extends late) : Fits late vars where
  distinct := h.distinct
  isLocal loc hloc := by
    obtain ⟨name, hname⟩ := h.isLocal loc hloc
    exact ⟨name, hextends.builder.grows.locations hname⟩

/-- The number of locations so far. -/
abbrev State.room (state : State) : Nat := state.builder.body.locations.size

theorem State.Extends.room {early late : State} (h : early.Extends late) :
    early.room ≤ late.room := h.builder.grows.locationCount

/-- Locations in scope are in the table of the state. -/
theorem Fits.lt {state : State} {vars : List (String × Loc)} (h : Fits state vars) {loc : Loc}
    (hloc : loc ∈ vars.map Prod.snd) : loc.index < state.room := by
  obtain ⟨name, hname⟩ := h.isLocal loc hloc
  obtain ⟨hlt, -⟩ := Array.getElem?_eq_some_iff.mp hname
  exact hlt

/-- The variables of the method below a bound are as they were. -/
def Kept (bound : Nat) (early late : Store) : Prop :=
  ∀ loc : Loc, loc.index < bound → late.locals loc = early.locals loc

theorem Kept.refl (bound : Nat) (store : Store) : Kept bound store store := fun _ _ => rfl

theorem Kept.trans {m n : Nat} {a b c : Store} (h₁ : Kept m a b) (h₂ : Kept n b c) (hmn : m ≤ n) :
    Kept m a c :=
  fun loc hloc => (h₂ loc (Nat.lt_of_lt_of_le hloc hmn)).trans (h₁ loc hloc)

theorem Kept.setLocal {bound : Nat} {early late : Store} (h : Kept bound early late) {loc : Loc}
    (hloc : bound ≤ loc.index) (word : Word) : Kept bound early (late.setLocal loc word) := by
  intro other hother
  rw [Store.setLocal_locals_other]
  · exact h other hother
  · rintro rfl
    omega

/-- What the steps leave alone is still represented. -/
theorem Represents.kept {state : State} {vars : List (String × Loc)} {memory memory' : Memory}
    {store store' : Store} (h : Represents vars memory store) (hfits : Fits state vars)
    (hkept : Kept state.room store store') (hvars : memory'.vars = memory.vars)
    (hglobals : store'.globals = memory'.globals) : Represents vars memory' store' where
  vars := by
    rw [hvars]
    exact h.vars.congr fun loc hloc => hkept loc (hfits.lt hloc)
  globals := hglobals

/-! ## Expressions and the memory -/

section

variable {world : World}

/-- A call out writes no variable. -/
theorem vars_callOut {memory memory' : Memory} {target : String} {args : List Word} {word : Word}
    (h : memory.callOut world target args = .ok (word, memory')) : memory'.vars = memory.vars := by
  rw [Memory.callOut] at h
  split at h
  · cases h
    rfl
  · cases h

/-- A computation with a result went through both of its parts. -/
theorem bind_eq_ok {α β : Type} {x : Except Ending α} {f : α → Except Ending β} {b : β}
    (h : (x >>= f) = .ok b) : ∃ a, x = .ok a ∧ f a = .ok b := by
  cases x with
  | ok a => exact ⟨a, rfl, h⟩
  | error ending => cases h

mutual

/-- Expressions write no variable. -/
theorem vars_evalExpr : ∀ {expr : Expr} {memory memory' : Memory} {word : Word},
    evalExpr world expr memory = .ok (word, memory') → memory'.vars = memory.vars
  | .int _, _, _, _, h | .bool _, _, _, _, h | .var _, _, _, _, h => by
      rw [evalExpr] at h
      cases h
      rfl
  | .call call, _, _, _, h => by
      rw [evalExpr] at h
      exact vars_evalCall h
  -- by recursion on the expression, along with the calls and the arguments in it
  | .binary (.strict op) lhs rhs, _, _, _, h => by
      rw [evalExpr] at h
      obtain ⟨left, hleft, h⟩ := bind_eq_ok h
      obtain ⟨right, hright, h⟩ := bind_eq_ok h
      obtain ⟨value, -, h⟩ := bind_eq_ok h
      cases h
      exact (vars_evalExpr hright).trans (vars_evalExpr hleft)
  | .binary .and lhs rhs, _, _, _, h | .binary .or lhs rhs, _, _, _, h => by
      rw [evalExpr] at h
      obtain ⟨left, hleft, h⟩ := bind_eq_ok h
      dsimp only at h
      split at h
      all_goals
        first
          | exact (vars_evalExpr h).trans (vars_evalExpr hleft)
          | cases h
            exact vars_evalExpr hleft
  | .unary op operand, _, _, _, h => by
      rw [evalExpr] at h
      obtain ⟨value, hvalue, h⟩ := bind_eq_ok h
      cases h
      exact vars_evalExpr hvalue

/-- Calls write no variable. -/
theorem vars_evalCall : ∀ {call : Call} {memory memory' : Memory} {word : Word},
    evalCall world call memory = .ok (word, memory') → memory'.vars = memory.vars
  | .mk name args isCallout, _, _, _, h => by
      rw [evalCall] at h
      obtain ⟨words, hwords, h⟩ := bind_eq_ok h
      exact (vars_callOut h).trans (vars_evalArgs hwords)

/-- Arguments write no variable. -/
theorem vars_evalArgs : ∀ {args : List Arg} {memory memory' : Memory} {words : List Word},
    evalArgs world args memory = .ok (words, memory') → memory'.vars = memory.vars
  | [], _, _, _, h => by
      rw [evalArgs] at h
      cases h
      rfl
  | .text value :: rest, _, _, _, h => by
      rw [evalArgs] at h
      obtain ⟨words, hwords, h⟩ := bind_eq_ok h
      cases h
      exact vars_evalArgs hwords
  | .expr value :: rest, _, _, _, h => by
      rw [evalArgs] at h
      obtain ⟨word, hword, h⟩ := bind_eq_ok h
      obtain ⟨words, hwords, h⟩ := bind_eq_ok h
      cases h
      exact (vars_evalArgs hwords).trans (vars_evalExpr hword)

end

/-- Expressions without calls leave the memory alone. -/
theorem memory_evalExpr : ∀ {expr : Expr} {memory memory' : Memory} {word : Word},
    expr.hasCall = false → evalExpr world expr memory = .ok (word, memory') → memory' = memory
  | .int _, _, _, _, _, h | .bool _, _, _, _, _, h | .var _, _, _, _, _, h => by
      rw [evalExpr] at h
      cases h
      rfl
  | .call call, _, _, _, hquiet, _ => by
      rw [Expr.hasCall] at hquiet
      cases hquiet
  | .binary (.strict op) lhs rhs, _, _, _, hquiet, h => by
      rw [Expr.hasCall, Bool.or_eq_false_iff] at hquiet
      rw [evalExpr] at h
      obtain ⟨left, hleft, h⟩ := bind_eq_ok h
      obtain ⟨right, hright, h⟩ := bind_eq_ok h
      obtain ⟨value, -, h⟩ := bind_eq_ok h
      cases h
      exact (memory_evalExpr hquiet.2 hright).trans (memory_evalExpr hquiet.1 hleft)
  | .binary .and lhs rhs, _, _, _, hquiet, h | .binary .or lhs rhs, _, _, _, hquiet, h => by
      rw [Expr.hasCall, Bool.or_eq_false_iff] at hquiet
      rw [evalExpr] at h
      obtain ⟨left, hleft, h⟩ := bind_eq_ok h
      dsimp only at h
      split at h
      all_goals
        first
          | exact (memory_evalExpr hquiet.2 h).trans (memory_evalExpr hquiet.1 hleft)
          | cases h
            exact memory_evalExpr hquiet.1 hleft
  | .unary op operand, _, _, _, hquiet, h => by
      rw [Expr.hasCall] at hquiet
      rw [evalExpr] at h
      obtain ⟨value, hvalue, h⟩ := bind_eq_ok h
      cases h
      exact memory_evalExpr hquiet hvalue

/-- Arguments without calls leave the memory alone. -/
theorem memory_evalArgs : ∀ {args : List Arg} {memory memory' : Memory} {words : List Word},
    args.any Arg.hasCall = false → evalArgs world args memory = .ok (words, memory') →
      memory' = memory
  | [], _, _, _, _, h => by
      rw [evalArgs] at h
      cases h
      rfl
  | .text value :: rest, _, _, _, hquiet, h => by
      rw [List.any_cons, Bool.or_eq_false_iff] at hquiet
      rw [evalArgs] at h
      obtain ⟨words, hwords, h⟩ := bind_eq_ok h
      cases h
      exact memory_evalArgs hquiet.2 hwords
  | .expr value :: rest, _, _, _, hquiet, h => by
      rw [List.any_cons, Bool.or_eq_false_iff] at hquiet
      rw [evalArgs] at h
      obtain ⟨word, hword, h⟩ := bind_eq_ok h
      obtain ⟨words, hwords, h⟩ := bind_eq_ok h
      cases h
      exact (memory_evalArgs hquiet.2 hwords).trans (memory_evalExpr hquiet.1 hword)

end

/-! ## Steps that place nothing -/

/-- A step of lowering that places nothing. -/
def Silent {α : Type} (step : Lower α) : Prop :=
  ∀ state, (step state).2.builder.body.blocks = state.builder.body.blocks ∧
    (step state).2.builder.current = state.builder.current

theorem silent_freshResult : Silent freshResult := fun _ => ⟨rfl, rfl⟩

theorem silent_newLabel : Silent (build (·.newLabel)) := fun _ => ⟨rfl, rfl⟩

theorem silent_unary (op : UnaryOp) (operand : Loc) : Silent (build (·.unary op operand)) :=
  fun _ => ⟨rfl, rfl⟩

theorem silent_binary (op : BinaryOp) (lhs rhs : Loc) : Silent (build (·.binary op lhs rhs)) :=
  fun _ => ⟨rfl, rfl⟩

/-- Interning a location appends nothing. -/
theorem silent_internLoc (location : Location) : Silent (build (·.intern location)) := by
  intro state
  have hbody : (state.builder.body.intern location).2.blocks = state.builder.body.blocks := by
    rw [Body.intern]
    cases state.builder.body.locations.findIdx? (· == location) with
    | some index => rfl
    | none => rfl
  exact ⟨hbody, rfl⟩

/-- Resolving a name appends nothing. -/
theorem silent_resolve (scope : Scope) (name : String) : Silent (resolve scope name) := by
  intro state
  rw [resolve]
  cases scope.vars.lookup name with
  | some loc => exact ⟨rfl, rfl⟩
  | none => exact silent_internLoc (.global _) _

/-- Choosing the destination appends nothing. -/
theorem silent_targetOrFresh (target : Option Loc) : Silent (targetOrFresh target) := by
  intro state
  cases target with
  | none => exact silent_freshResult state
  | some dest => exact ⟨rfl, rfl⟩

section

variable {world : World} {args : Nat → Word} {final : State}

/-- A silent step goes on at the same place of the finished body. -/
theorem runs_silent {α : Type} {step : Lower α} (h : Silent step) (state : State) (store : Store)
    (calls : List CallEvent) :
    Runs world args final 0 ⟨state, store, calls⟩ ⟨(step state).2, store, calls⟩ :=
  runs_of_quiet (h state).1 (h state).2 store calls

/-! ## Locations -/

/-- What a local variable contains. -/
theorem contents_of_local {loc : Loc} {name : Symbol}
    (h : final.builder.body.locations[loc.index]? = some (.localVar name)) (store : Store) :
    contents world args final store loc = store.locals loc := by
  simp only [contents, Body.read, h, Option.bind_some, Body.readAs]

/-- What is written to a local variable. -/
theorem written_of_local {loc : Loc} {name : Symbol}
    (h : final.builder.body.locations[loc.index]? = some (.localVar name)) (store : Store)
    (word : Word) :
    written world args final store loc word = some (store.setLocal loc word) := by
  simp only [written, Body.write, h, Option.bind_some, Body.writeAs]

/-- A new result is a local variable of the finished body. -/
theorem location_freshResult {state : State} (hlater : Later (freshResult state).2 final) :
    ∃ name, final.builder.body.locations[(freshResult state).1.index]? = some (.localVar name) := by
  refine ⟨(intern s!".t{state.nextResult}" state).1, hlater.grows.locations ?_⟩
  show (state.builder.body.locations.push _)[state.builder.body.locations.size]? = _
  rw [Array.getElem?_push, if_pos rfl]
  rfl

/-- A location that was looked up has the data it was looked up for. -/
theorem location_internLoc {state : State} {location : Location}
    (hlater : Later (build (·.intern location) state).2 final) :
    final.builder.body.locations[(build (·.intern location) state).1.index]? = some location := by
  refine hlater.grows.locations ?_
  simp only [build, Builder.intern, Body.intern]
  cases h : state.builder.body.locations.findIdx? (· == location) with
  | some index =>
      obtain ⟨hlt, hsame, -⟩ := Array.findIdx?_eq_some_iff_getElem.mp h
      show state.builder.body.locations[index]? = _
      rw [Array.getElem?_eq_getElem hlt, eq_of_beq hsame]
  | none =>
      show (state.builder.body.locations.push location)[state.builder.body.locations.size]? = _
      rw [Array.getElem?_push, if_pos rfl]

/-- A constant contains its value. -/
theorem contents_constant {state : State} {value : Word}
    (hlater : Later (build (·.constant value) state).2 final) (store : Store) :
    contents world args final store (build (·.constant value) state).1 = some value := by
  have hloc : final.builder.body.locations[(build (·.constant value) state).1.index]? =
      some (.constant value) := location_internLoc hlater
  simp only [contents, Body.read, hloc, Option.bind_some, Body.readAs]

/-- An interned text is known at the end. -/
theorem Later.text {state : State} {text : String} (hlater : Later (intern text state).2 final) :
    final.symbols.text? (intern text state).1 = some text :=
  hlater.symbols (SymbolPool.text?_intern _ _)

/-- What a name means to the finished body. -/
theorem location_resolve {scope : Scope} {name : String} {state : State}
    (htidy : state.builder.Tidy) (hfits : Fits state scope.vars)
    (hlater : Later (resolve scope name state).2 final) :
    match scope.vars.lookup name with
    | some loc => (resolve scope name state).1 = loc ∧
        ∃ symbol, final.builder.body.locations[loc.index]? = some (.localVar symbol)
    | none => ∃ symbol, final.symbols.text? symbol = some name ∧
        final.builder.body.locations[(resolve scope name state).1.index]? =
          some (.global symbol) := by
  rw [resolve] at hlater ⊢
  cases hname : scope.vars.lookup name with
  | some loc =>
      rw [hname] at hlater
      obtain ⟨symbol, hsymbol⟩ := hfits.isLocal loc (mem_of_lookup hname)
      exact ⟨rfl, symbol, hlater.grows.locations hsymbol⟩
  | none =>
      rw [hname] at hlater
      have hextends := extending_intern name state htidy
      have hglobal : (intern name state).2.Extends
          (build (·.global (intern name state).1) (intern name state).2).2 :=
        extending_build (fun _ h => Builder.extends_intern h _) _ hextends.tidy
      refine ⟨(intern name state).1, (Later.of_extends hglobal hlater).text, ?_⟩
      exact location_internLoc hlater

/-- A name is read as the tree reads it. -/
theorem contents_resolve {scope : Scope} {name : String} {state : State} {memory : Memory}
    {store : Store} (htidy : state.builder.Tidy) (hfits : Fits state scope.vars)
    (hlater : Later (resolve scope name state).2 final)
    (hrep : Represents scope.vars memory store) :
    contents world args final store (resolve scope name state).1 = some (memory.get name) := by
  have hloc := location_resolve htidy hfits hlater
  have hlookup := hrep.vars.lookup name
  rw [Memory.get]
  cases hname : scope.vars.lookup name with
  | some loc =>
      rw [hname] at hloc hlookup
      obtain ⟨heq, symbol, hsymbol⟩ := hloc
      obtain ⟨word, hword, hheld⟩ := hlookup
      rw [heq, contents_of_local hsymbol, hword, hheld]
  | none =>
      rw [hname] at hloc hlookup
      obtain ⟨symbol, htext, hsymbol⟩ := hloc
      dsimp only at hlookup
      simp only [contents, Body.read, hsymbol, Option.bind_some, Body.readAs, settingOf, htext,
        Option.getD_some, hlookup, hrep.globals]

/-- A name is written as the tree writes it, and nothing outside of the scope
    changes. -/
theorem written_resolve (world : World) (args : Nat → Word) {scope : Scope} {name : String}
    {state : State} {memory : Memory}
    {store : Store} (htidy : state.builder.Tidy) (hfits : Fits state scope.vars)
    (hlater : Later (resolve scope name state).2 final)
    (hrep : Represents scope.vars memory store) (word : Word) :
    ∃ store', written world args final store (resolve scope name state).1 word = some store' ∧
      Represents scope.vars (memory.set name word) store' ∧
      ∀ loc, loc ∉ scope.vars.map Prod.snd → store'.locals loc = store.locals loc := by
  have hloc := location_resolve htidy hfits hlater
  have hlookup := hrep.vars.lookup name
  rw [Memory.set]
  cases hname : scope.vars.lookup name with
  -- a name in scope is a local variable, every other one is a field
  | some loc =>
      rw [hname] at hloc hlookup
      obtain ⟨heq, symbol, hsymbol⟩ := hloc
      obtain ⟨old, hold, -⟩ := hlookup
      refine ⟨store.setLocal loc word, ?_, ?_, ?_⟩
      · rw [heq]
        exact written_of_local hsymbol store word
      · rw [hold, Option.isSome_some, if_pos rfl]
        exact ⟨hrep.vars.assign hfits.distinct hname word, hrep.globals⟩
      · intro other hother
        refine Store.setLocal_locals_other ?_ store word
        rintro rfl
        exact hother (mem_of_lookup hname)
  | none =>
      rw [hname] at hloc hlookup
      obtain ⟨symbol, htext, hsymbol⟩ := hloc
      dsimp only at hlookup
      refine ⟨store.setGlobal name word, ?_, ?_, fun _ _ => rfl⟩
      · simp only [written, Body.write, hsymbol, Option.bind_some, Body.writeAs, settingOf, htext,
          Option.getD_some]
      · rw [hlookup, if_neg (by simp)]
        refine ⟨hrep.vars.congr fun _ _ => rfl, ?_⟩
        rw [Store.setGlobal, hrep.globals]

end

/-! ## Values -/

/-- Whether an expression is a name, so that its value stays where the name
    has it. -/
def isName : Expr → Bool
  | .var _ => true
  | _ => false

section

variable (world : World) (args : Nat → Word) (final : State)

/-- A location goes on to hold a word while only new locations are written;
    if it may be a field, also no field may be written. -/
def Stays (bound : Nat) (store : Store) (loc : Loc) (word : Word) (named : Bool) : Prop :=
  ∀ store', Kept bound store store' → (named = true → store'.globals = store.globals) →
    contents world args final store' loc = some word

/-- A word comes to the target if there is one, and to the location that
    lowering gives otherwise. -/
def Arrives (p : Point) (target : Option Loc) (named : Bool) (lowered : Loc × State) (word : Word)
    (store : Store) (calls : List CallEvent) : Prop :=
  match target with
  | none => Runs world args final 0 p ⟨lowered.2, store, calls⟩ ∧
      Stays world args final lowered.2.room store lowered.1 word named
  | some dest => ∀ store', written world args final store dest word = some store' →
      Runs world args final 0 p ⟨lowered.2, store', calls⟩

/-- From a point on, the finished body computes what the tree computes, and it
    writes no variable below a bound but the target. -/
def Evaluates (bound : Nat) (p : Point) (target : Option Loc) (named : Bool)
    (lowered : Loc × State) : Except Ending (Word × Memory) → Prop
  | .error ending => Ends world args final p ending
  | .ok (word, memory) => ∃ store, Kept bound p.store store ∧ store.globals = memory.globals ∧
      Arrives world args final p target named lowered word store memory.calls

/-- The same for arguments. -/
def Supplies (bound : Nat) (p : Point) (lowered : List Loc × State) :
    Except Ending (List Word × Memory) → Prop
  | .error ending => Ends world args final p ending
  | .ok (words, memory) => ∃ store, Kept bound p.store store ∧ store.globals = memory.globals ∧
      Runs world args final 0 p ⟨lowered.2, store, memory.calls⟩ ∧
      lowered.1.mapM (contents world args final store) = some words

/-- What the answer to a call makes of a store. -/
def replied (store : Store) : Except Ending (Word × Memory) → Except Ending Body.Reached
  | .ok (word, memory) => .ok ⟨word, { store with globals := memory.globals }, memory.calls⟩
  | .error ending => .error ending

/-- From a point on, the finished body ends or gets ready for a call that is
    answered as in the tree. -/
def Readies (bound : Nat) (p : Point) (lowered : Inst × State)
    (result : Except Ending (Word × Memory)) : Prop :=
  (∃ ending, result = .error ending ∧ Ends world args final p ending) ∨
    ∃ store calls target locs isExternal, Kept bound p.store store ∧
      Runs world args final 0 p ⟨lowered.2, store, calls⟩ ∧
      final.builder.body.records[lowered.1.index]? = some (.call target locs isExternal []) ∧
      final.builder.body.callOut (settingOf world final.symbols args) store calls target locs =
        replied store result

end

section

variable {world : World} {args : Nat → Word} {final : State}

/-- What stays is there now. -/
theorem Stays.now {bound : Nat} {store : Store} {loc : Loc} {word : Word} {named : Bool}
    (h : Stays world args final bound store loc word named) :
    contents world args final store loc = some word :=
  h store (Kept.refl bound store) fun _ => rfl

/-- A variable of the method stays as it is. -/
theorem stays_local {bound : Nat} {store : Store} {loc : Loc} {word : Word} {named : Bool}
    {name : Symbol} (hloc : final.builder.body.locations[loc.index]? = some (.localVar name))
    (hlt : loc.index < bound) (hword : store.locals loc = some word) :
    Stays world args final bound store loc word named := by
  intro store' hkept _
  rw [contents_of_local hloc, hkept loc hlt]
  exact hword

/-- A new result that was written stays as long as nothing older than it is written. -/
theorem stays_freshResult {state : State} (hlater : Later (freshResult state).2 final)
    {bound : Nat} (hbound : state.room < bound) (store : Store) (word : Word) (named : Bool) :
    Stays world args final bound (store.setLocal (freshResult state).1 word)
      (freshResult state).1 word named := by
  obtain ⟨name, hname⟩ := location_freshResult hlater
  exact stays_local hname hbound (Store.setLocal_locals_same _ _ _)

theorem room_freshResult (state : State) : (freshResult state).2.room = state.room + 1 :=
  Array.size_push _

/-- Steps before an evaluation that write no old variable. -/
theorem Evaluates.after {bound : Nat} {p q : Point} {target : Option Loc} {named : Bool}
    {lowered : Loc × State} {result : Except Ending (Word × Memory)}
    (h : Evaluates world args final bound q target named lowered result)
    (hruns : Runs world args final 0 p q) (hkept : Kept bound p.store q.store) :
    Evaluates world args final bound p target named lowered result := by
  cases result with
  | error ending => exact hruns.ends h
  | ok value =>
      obtain ⟨word, memory⟩ := value
      obtain ⟨store, hkept', hglobals, harrives⟩ := h
      refine ⟨store, hkept.trans hkept' (Nat.le_refl _), hglobals, ?_⟩
      cases target with
      | none => exact ⟨hruns.trans harrives.1, harrives.2⟩
      | some dest => exact fun store' hwrite => hruns.trans (harrives store' hwrite)

/-- A value that is in a location already. -/
theorem evaluates_deliver {bound : Nat} {state : State} {src : Loc} {target : Option Loc}
    {word : Word} {named : Bool} {memory : Memory} {store : Store} (htidy : state.builder.Tidy)
    (hlater : Later (deliver src target state).2 final) (hglobals : store.globals = memory.globals)
    (hstays : Stays world args final state.room store src word named) :
    Evaluates world args final bound ⟨state, store, memory.calls⟩ target named
      (deliver src target state) (.ok (word, memory)) := by
  refine ⟨store, Kept.refl bound store, hglobals, ?_⟩
  cases target with
  | none => exact ⟨Runs.refl _, hstays⟩
  | some dest =>
      intro store' hwrite
      exact (runs_copy htidy hlater hstays.now hwrite).mono (Nat.zero_le 1)

/-- A value that a record computes, and that is saved to the target or to a
    fresh variable. -/
theorem evaluates_save {target : Option Loc} {start state : State} {value : Inst}
    {reached : Body.Reached} {memory : Memory} {store : Store} {calls : List CallEvent}
    (hextends : (targetOrFresh target start).2.Extends state)
    (hlater : Later (emit (·.save value (targetOrFresh target start).1) state).2 final)
    (hvalue : final.builder.body.evaluateAt (settingOf world final.symbols args) store calls
      value = .ok reached)
    (hlocals : reached.store.locals = store.locals)
    (hglobals : reached.store.globals = memory.globals) (hcalls : reached.calls = memory.calls) :
    Evaluates world args final start.room ⟨state, store, calls⟩ target false
      ((targetOrFresh target start).1, (emit (·.save value (targetOrFresh target start).1) state).2)
      (.ok (reached.value, memory)) := by
  have hsave := extending_save value (targetOrFresh target start).1 state hextends.tidy
  -- the result goes to the location that was asked for, or else to a new one
  cases target with
  | none =>
      have hlater' : Later (freshResult start).2 final :=
        Later.of_extends (hextends.trans hsave) hlater
      obtain ⟨name, hname⟩ := location_freshResult hlater'
      have hroom : (freshResult start).2.room ≤ (emit (·.save value _) state).2.room :=
        (hextends.trans hsave).room
      rw [room_freshResult] at hroom
      refine ⟨reached.store.setLocal (freshResult start).1 reached.value, ?_, hglobals, ?_, ?_⟩
      · refine Kept.setLocal (fun loc _ => ?_) (Nat.le_refl _) _
        rw [hlocals]
      · rw [← hcalls]
        exact (runs_save hextends.tidy hlater hvalue (written_of_local hname _ _)).mono
          (Nat.zero_le 1)
      · exact stays_freshResult hlater' hroom _ _ _
  | some dest =>
      refine ⟨reached.store, fun loc _ => by rw [hlocals], hglobals, ?_⟩
      intro store' hwrite
      rw [← hcalls]
      exact (runs_save hextends.tidy hlater hvalue hwrite).mono (Nat.zero_le 1)

/-- The left operand of an operator, as lowering keeps it while the right one
    is evaluated. -/
def keepLeft (left : Loc) (hasCall : Bool) : Lower Loc :=
  if hasCall then do
    let early ← freshResult
    emit (·.copy left early)
    pure early
  else pure left

theorem extending_keepLeft (left : Loc) (hasCall : Bool) : Extending (keepLeft left hasCall) := by
  cases hasCall with
  | true =>
      exact extending_freshResult.bind fun early =>
        (extending_copy left early).bind fun _ => extending_pure early
  | false => exact extending_pure left

/-- Both forms of a strict operator in one: the left operand is kept if need be. -/
theorem lowerExpr_strict (scope : Scope) (op : BinaryOp) (lhs rhs : Expr) (target : Option Loc) :
    lowerExpr scope (.binary (.strict op) lhs rhs) target = (do
      let dest ← targetOrFresh target
      let left ← lowerExpr scope lhs none
      let left ← keepLeft left rhs.hasCall
      let right ← lowerExpr scope rhs none
      let value ← build (·.binary op left right)
      emit (·.save value dest)
      return dest) := by
  rw [lowerExpr]
  cases rhs.hasCall with
  | true => rfl
  | false => rfl

/-- A left operand that was kept is still there after the right operand. -/
theorem runs_keepLeft (calls : List CallEvent) {state : State} {left : Loc}
    {hasCall named : Bool} {word : Word}
    {store : Store} (htidy : state.builder.Tidy)
    (hlater : Later (keepLeft left hasCall state).2 final)
    (hstays : Stays world args final state.room store left word named) :
    ∃ store', Kept state.room store store' ∧ store'.globals = store.globals ∧
      Runs world args final 0 ⟨state, store, calls⟩
        ⟨(keepLeft left hasCall state).2, store', calls⟩ ∧
      Stays world args final (keepLeft left hasCall state).2.room store'
        (keepLeft left hasCall state).1 word (!hasCall) := by
  cases hasCall with
  | false =>
      refine ⟨store, Kept.refl _ _, rfl, Runs.refl _, ?_⟩
      exact fun store' hkept hglobals => hstays store' hkept fun _ => hglobals rfl
  | true =>
      have hfresh := extending_freshResult state htidy
      have hcopy := extending_copy left (freshResult state).1 _ hfresh.tidy
      have hlater' : Later (freshResult state).2 final := Later.of_extends hcopy hlater
      obtain ⟨name, hname⟩ := location_freshResult hlater'
      have hroom : (freshResult state).2.room ≤ (keepLeft left true state).2.room := hcopy.room
      rw [room_freshResult] at hroom
      refine ⟨store.setLocal (freshResult state).1 word, ?_, rfl, ?_, ?_⟩
      · exact (Kept.refl _ _).setLocal (Nat.le_refl _) _
      · exact (runs_silent silent_freshResult state store calls).trans
          ((runs_copy hfresh.tidy hlater hstays.now (written_of_local hname _ _)).mono
            (Nat.zero_le 1))
      · exact stays_freshResult hlater' hroom _ _ _

/-- The end of a short-circuit operator: its right operand, which is skipped
    when a test is zero. -/
def lowerUnless (scope : Scope) (rhs : Expr) (dest test : Loc) (done : Label)
    (target : Option Loc) : Lower Loc := do
  emit (·.branchIfZero test done)
  let _ ← lowerExpr scope rhs (some dest)
  emit (·.label done)
  deliver dest target

/-- What is there before the test is there at the end. -/
theorem later_lowerUnless {scope : Scope} {rhs : Expr} {target : Option Loc} {state : State}
    {dest test : Loc} {done : Label} (htidy : state.builder.Tidy)
    (hunplaced : state.builder.body.labels[done.index]? = some none)
    (hlater : Later (lowerUnless scope rhs dest test done target state).2 final) :
    Later state final := by
  let s₁ := emit (·.branchIfZero test done) state
  let s₂ := lowerExpr scope rhs (some dest) s₁.2
  let s₃ := emit (·.label done) s₂.2
  have e₁ : State.Extends state s₁.2 := extending_branchIfZero test done state htidy
  have e₂ : State.Extends s₁.2 s₂.2 := extending_lowerExpr scope rhs (some dest) s₁.2 e₁.tidy
  have e₃ := extending_deliver dest target s₃.2 (Builder.tidy_label e₂.tidy done)
  have l₃ : Later s₃.2 final := Later.of_extends e₃ hlater
  exact Later.of_extends (e₁.trans e₂)
    (Later.of_label e₂.tidy ((e₁.trans e₂).builder.unplaced hunplaced) l₃)

/-- The right operand decides, unless the test is zero. -/
theorem evaluates_unless {scope : Scope} {rhs : Expr} {target : Option Loc} {state : State}
    {dest test : Loc} {done : Label} {name : Symbol} {bound : Nat} {memory : Memory}
    {store : Store} {left word : Word}
    (htidy : state.builder.Tidy)
    (hunplaced : state.builder.body.labels[done.index]? = some none)
    (hlater : Later (lowerUnless scope rhs dest test done target state).2 final)
    (hdest : final.builder.body.locations[dest.index]? = some (.localVar name))
    (hbound : bound ≤ dest.index) (hroom : dest.index < state.room)
    (hglobals : store.globals = memory.globals)
    (htest : contents world args final store test = some word)
    (hleft : store.locals dest = some left)
    (hright : ∀ {state' : State}, state'.builder.Tidy → state.Extends state' →
      Later (lowerExpr scope rhs (some dest) state').2 final →
      Evaluates world args final state'.room ⟨state', store, memory.calls⟩ (some dest)
        (isName rhs) (lowerExpr scope rhs (some dest) state') (evalExpr world rhs memory)) :
    Evaluates world args final bound ⟨state, store, memory.calls⟩ target false
      (lowerUnless scope rhs dest test done target state)
      (if word = 0 then .ok (left, memory) else evalExpr world rhs memory) := by
  -- the label is placed behind both ways, so both of them come to it
  let s₁ := emit (·.branchIfZero test done) state
  let s₂ := lowerExpr scope rhs (some dest) s₁.2
  let s₃ := emit (·.label done) s₂.2
  have e₁ : State.Extends state s₁.2 := extending_branchIfZero test done state htidy
  have e₂ : State.Extends s₁.2 s₂.2 := extending_lowerExpr scope rhs (some dest) s₁.2 e₁.tidy
  have unplaced₂ : s₂.2.builder.body.labels[done.index]? = some none :=
    (e₁.trans e₂).builder.unplaced hunplaced
  have tidy₃ : s₃.2.builder.Tidy := Builder.tidy_label e₂.tidy done
  have l₃ : Later s₃.2 final := Later.of_extends (extending_deliver dest target s₃.2 tidy₃) hlater
  have l₂ : Later s₂.2 final := Later.of_label e₂.tidy unplaced₂ l₃
  have l₁ : Later s₁.2 final := Later.of_extends e₂ l₂
  have hroom₃ : dest.index < s₃.2.room :=
    Nat.lt_of_lt_of_le hroom (Nat.le_trans (e₁.trans e₂).room
      (Builder.grows_label e₂.tidy unplaced₂).locationCount)
  show Evaluates world args final bound _ target false (deliver dest target s₃.2) _
  have hbranch : Runs world args final 1 ⟨state, store, memory.calls⟩ _ :=
    runs_test htidy l₁ htest e₂.tidy unplaced₂ l₃
  by_cases hword : word = 0
  · rw [if_pos hword] at hbranch ⊢
    exact (evaluates_deliver tidy₃ hlater hglobals (stays_local hdest hroom₃ hleft)).after
      (hbranch.mono (Nat.zero_le 1)) (Kept.refl _ _)
  · rw [if_neg hword] at hbranch ⊢
    have hvalue := hright e₁.tidy e₁ l₂
    cases hresult : evalExpr world rhs memory with
    | error ending =>
        rw [hresult] at hvalue
        exact hbranch.ends hvalue
    | ok value =>
        obtain ⟨right, memory'⟩ := value
        rw [hresult] at hvalue
        obtain ⟨store', hkept, hglobals', harrives⟩ := hvalue
        have hruns := harrives _ (written_of_local hdest store' right)
        have hlabel := runs_label world args (store'.setLocal dest right) memory'.calls e₂.tidy l₃
        have hdelivered : Evaluates world args final bound
            ⟨s₃.2, store'.setLocal dest right, memory'.calls⟩ target false
            (deliver dest target s₃.2) (.ok (right, memory')) :=
          evaluates_deliver tidy₃ hlater hglobals'
            (stays_local hdest hroom₃ (Store.setLocal_locals_same _ _ _))
        refine hdelivered.after (((hbranch.trans hruns).trans hlabel).mono (Nat.zero_le _)) ?_
        refine Kept.setLocal (fun loc hloc => hkept loc ?_) hbound right
        have := e₁.room
        omega

/-- A constant. -/
theorem evaluates_constant {value : Word} {target : Option Loc} {state : State} {memory : Memory}
    {store : Store} (htidy : state.builder.Tidy)
    (hlater : Later ((build (·.constant value) >>= (deliver · target)) state).2 final)
    (hglobals : store.globals = memory.globals) :
    Evaluates world args final state.room ⟨state, store, memory.calls⟩ target false
      ((build (·.constant value) >>= (deliver · target)) state) (.ok (value, memory)) := by
  let s₁ := build (·.constant value) state
  have e₁ : State.Extends state s₁.2 := extending_constant value state htidy
  have l₁ : Later s₁.2 final := Later.of_extends (extending_deliver s₁.1 target s₁.2 e₁.tidy) hlater
  exact (evaluates_deliver e₁.tidy hlater hglobals fun store' _ _ =>
    contents_constant l₁ store').after
      (runs_silent (silent_internLoc _) state store _) (Kept.refl _ _)

/-- A name. -/
theorem evaluates_name {scope : Scope} {name : String} {target : Option Loc} {state : State}
    {memory : Memory} {store : Store} (htidy : state.builder.Tidy)
    (hfits : Fits state scope.vars)
    (hlater : Later ((resolve scope name >>= (deliver · target)) state).2 final)
    (hrep : Represents scope.vars memory store) :
    Evaluates world args final state.room ⟨state, store, memory.calls⟩ target true
      ((resolve scope name >>= (deliver · target)) state) (.ok (memory.get name, memory)) := by
  let s₁ := resolve scope name state
  have e₁ : State.Extends state s₁.2 := extending_resolve scope name state htidy
  have l₁ : Later s₁.2 final := Later.of_extends (extending_deliver s₁.1 target s₁.2 e₁.tidy) hlater
  refine (evaluates_deliver e₁.tidy hlater hrep.globals fun store' hkept hglobals => ?_).after
    (runs_silent (silent_resolve scope name) state store _) (Kept.refl _ _)
  have hkept' : Kept state.room store store' := (Kept.refl _ store).trans hkept e₁.room
  exact contents_resolve htidy hfits l₁
    (hrep.kept hfits hkept' rfl ((hglobals rfl).trans hrep.globals))

/-- An operator between two values that are at hand. -/
theorem evaluates_binary {op : BinaryOp} {target : Option Loc} {start state : State}
    {lhs rhs : Loc} {a b : Word} {memory : Memory} {store : Store}
    (hextends : (targetOrFresh target start).2.Extends state)
    (hlater : Later ((do
      let value ← build (·.binary op lhs rhs)
      emit (·.save value (targetOrFresh target start).1)
      return (targetOrFresh target start).1 : Lower Loc) state).2 final)
    (hleft : contents world args final store lhs = some a)
    (hright : contents world args final store rhs = some b)
    (hglobals : store.globals = memory.globals) :
    Evaluates world args final start.room ⟨state, store, memory.calls⟩ target false
      ((do
        let value ← build (·.binary op lhs rhs)
        emit (·.save value (targetOrFresh target start).1)
        return (targetOrFresh target start).1 : Lower Loc) state)
      (do return (← memory.operate world op a b, memory)) := by
  let s₁ := build (·.binary op lhs rhs) state
  have e₁ : State.Extends state s₁.2 := extending_binary op lhs rhs state hextends.tidy
  have hvalue := evaluateAt_binary memory.calls
    (Later.of_extends (extending_save s₁.1 (targetOrFresh target start).1 s₁.2 e₁.tidy) hlater)
    hleft hright
  have hquiet : Runs world args final 0 ⟨state, store, memory.calls⟩
      ⟨s₁.2, store, memory.calls⟩ := runs_silent (silent_binary op lhs rhs) state store _
  rw [Memory.operate]
  cases happly : world.arithmetic.apply op a b with
  | some word =>
      rw [happly] at hvalue
      exact (evaluates_save (hextends.trans e₁) hlater hvalue rfl hglobals rfl).after hquiet
        (Kept.refl _ _)
  | none =>
      rw [happly, computed, hglobals] at hvalue
      exact hquiet.ends (ends_save e₁.tidy hlater hvalue)

/-- An argument that is at hand, and then the others. -/
theorem supplies_cons {scope : Scope} {rest : List Arg} {bound : Nat} {p : Point} {state : State}
    {loc : Loc} {named : Bool} {word : Word} {memory : Memory} {store : Store}
    (hruns : Runs world args final 0 p ⟨state, store, memory.calls⟩)
    (hkept : Kept bound p.store store) (hbound : bound ≤ state.room)
    (hglobals : store.globals = memory.globals)
    (hstays : Stays world args final state.room store loc word named)
    (hnamed : named = true → rest.any Arg.hasCall = false)
    (hrest : Supplies world args final state.room ⟨state, store, memory.calls⟩
      (lowerArgs scope rest state) (evalArgs world rest memory)) :
    Supplies world args final bound p
      ((do return loc :: (← lowerArgs scope rest) : Lower (List Loc)) state)
      (do
        let (words, memory) ← evalArgs world rest memory
        return (word :: words, memory)) := by
  cases hwords : evalArgs world rest memory with
  | error ending =>
      rw [hwords] at hrest
      exact hruns.ends hrest
  | ok value =>
      obtain ⟨words, memory'⟩ := value
      rw [hwords] at hrest
      obtain ⟨store', hkept', hglobals', hruns', hvalues⟩ := hrest
      refine ⟨store', hkept.trans hkept' hbound, hglobals', hruns.trans hruns', ?_⟩
      have hword : contents world args final store' loc = some word := by
        refine hstays store' hkept' fun h => ?_
        rw [hglobals', memory_evalArgs (hnamed h) hwords, ← hglobals]
      show (loc :: (lowerArgs scope rest state).1).mapM _ = _
      rw [List.mapM_cons, hword, hvalues]
      rfl

/-- Lowering of an argument that is not a name. -/
theorem lowerArgs_expr (scope : Scope) {value : Expr} (hvalue : isName value = false)
    (rest : List Arg) :
    lowerArgs scope (.expr value :: rest) = (do
      let loc ← lowerExpr scope value none
      return loc :: (← lowerArgs scope rest)) := by
  rw [lowerArgs]
  rintro name rfl
  cases hvalue

/-- An argument that is not a name, and then the others. -/
theorem supplies_expr {scope : Scope} {value : Expr} {rest : List Arg} {state : State}
    {memory : Memory} {store : Store} (hname : isName value = false)
    (htidy : state.builder.Tidy) (hfits : Fits state scope.vars)
    (hlater : Later (lowerArgs scope (.expr value :: rest) state).2 final)
    (hrep : Represents scope.vars memory store)
    (hvalue : state.builder.Tidy → Fits state scope.vars →
      Later (lowerExpr scope value none state).2 final → Represents scope.vars memory store →
      Evaluates world args final state.room ⟨state, store, memory.calls⟩ none (isName value)
        (lowerExpr scope value none state) (evalExpr world value memory))
    (hrest : ∀ {state : State} {memory : Memory} {store : Store}, state.builder.Tidy →
      Fits state scope.vars → Later (lowerArgs scope rest state).2 final →
      Represents scope.vars memory store →
      Supplies world args final state.room ⟨state, store, memory.calls⟩
        (lowerArgs scope rest state) (evalArgs world rest memory)) :
    Supplies world args final state.room ⟨state, store, memory.calls⟩
      (lowerArgs scope (.expr value :: rest) state)
      (evalArgs world (.expr value :: rest) memory) := by
  rw [lowerArgs_expr scope hname] at hlater ⊢
  rw [evalArgs]
  let s₁ := lowerExpr scope value none state
  have e₁ : State.Extends state s₁.2 := extending_lowerExpr scope value none state htidy
  have l₁ : Later s₁.2 final :=
    Later.of_extends (extending_lowerArgs scope rest s₁.2 e₁.tidy) hlater
  have hhead := hvalue htidy hfits l₁ hrep
  cases hresult : evalExpr world value memory with
  | error ending =>
      rw [hresult] at hhead
      exact hhead
  | ok result =>
      obtain ⟨word, memory₁⟩ := result
      rw [hresult, hname] at hhead
      obtain ⟨store₁, hkept₁, hglobals₁, hruns₁, hstays₁⟩ := hhead
      exact supplies_cons hruns₁ hkept₁ e₁.room hglobals₁ hstays₁ nofun
        (hrest e₁.tidy (hfits.mono e₁) hlater
          (hrep.kept hfits hkept₁ (vars_evalExpr hresult) hglobals₁))

/-! ## Operators and calls

    What holds of the operands wherever they stand holds of the whole expression. -/

/-- Wherever an expression stands in its scope, the finished body computes it. -/
def Expresses (world : World) (args : Nat → Word) (final : State) (scope : Scope) (expr : Expr) :
    Prop :=
  ∀ (target : Option Loc) {state : State} {memory : Memory} {store : Store}, state.builder.Tidy →
    Fits state scope.vars → Later (lowerExpr scope expr target state).2 final →
    Represents scope.vars memory store →
    Evaluates world args final state.room ⟨state, store, memory.calls⟩ target (isName expr)
      (lowerExpr scope expr target state) (evalExpr world expr memory)

section

variable {scope : Scope} {lhs rhs : Expr}

/-- An operator with its left operand at hand: the right operand, and then the
    operator itself. -/
def lowerOperator (scope : Scope) (op : BinaryOp) (rhs : Expr) (dest left : Loc) : Lower Loc := do
  let left ← keepLeft left rhs.hasCall
  let right ← lowerExpr scope rhs none
  let value ← build (·.binary op left right)
  emit (·.save value dest)
  return dest

/-- The part of an operator behind its left operand. -/
theorem extending_lowerOperator (scope : Scope) (op : BinaryOp) (rhs : Expr) (dest left : Loc) :
    Extending (lowerOperator scope op rhs dest left) :=
  (extending_keepLeft left rhs.hasCall).bind fun left =>
    (extending_lowerExpr scope rhs none).bind fun right =>
      (extending_binary op left right).bind fun value =>
        (extending_save value dest).bind fun _ => extending_pure dest

/-- The left operand stays as it is while the right one is evaluated. -/
theorem evaluates_operator (hrhs : Expresses world args final scope rhs) {op : BinaryOp}
    {target : Option Loc} {start state : State} {left : Loc} {named : Bool} {a : Word}
    {memory : Memory} {store : Store} (hextends : (targetOrFresh target start).2.Extends state)
    (hfits : Fits state scope.vars) (hroom : start.room ≤ state.room)
    (hlater : Later
      (lowerOperator scope op rhs (targetOrFresh target start).1 left state).2 final)
    (hrep : Represents scope.vars memory store)
    (hleft : Stays world args final state.room store left a named) :
    Evaluates world args final start.room ⟨state, store, memory.calls⟩ target false
      (lowerOperator scope op rhs (targetOrFresh target start).1 left state)
      (do
        let (b, memory) ← evalExpr world rhs memory
        return (← memory.operate world op a b, memory)) := by
  let dest := (targetOrFresh target start).1
  let s₁ := keepLeft left rhs.hasCall state
  let s₂ := lowerExpr scope rhs none s₁.2
  have e₁ : State.Extends state s₁.2 := extending_keepLeft left rhs.hasCall state hextends.tidy
  have e₂ : State.Extends s₁.2 s₂.2 := extending_lowerExpr scope rhs none s₁.2 e₁.tidy
  have hlast : Extending (do
      let value ← build (·.binary op s₁.1 s₂.1)
      emit (·.save value dest)
      return dest : Lower Loc) :=
    (extending_binary op s₁.1 s₂.1).bind fun value =>
      (extending_save value dest).bind fun _ => extending_pure dest
  have l₂ : Later s₂.2 final := Later.of_extends (hlast s₂.2 e₂.tidy) hlater
  have l₁ : Later s₁.2 final := Later.of_extends e₂ l₂
  obtain ⟨store₁, hkept₁, hglobals₁, hruns₁, hstays₁⟩ :=
    runs_keepLeft memory.calls hextends.tidy l₁ hleft
  have hrep₁ : Represents scope.vars memory store₁ :=
    hrep.kept hfits hkept₁ rfl (hglobals₁.trans hrep.globals)
  have hright := hrhs none e₁.tidy (hfits.mono e₁) l₂ hrep₁
  cases hresult : evalExpr world rhs memory with
  | error ending =>
      rw [hresult] at hright
      exact hruns₁.ends hright
  | ok value =>
      obtain ⟨b, memory₂⟩ := value
      rw [hresult] at hright
      obtain ⟨store₂, hkept₂, hglobals₂, hruns₂, hstays₂⟩ := hright
      -- without a call on the right, no field has changed there
      have hstill : contents world args final store₂ s₁.1 = some a := by
        refine hstays₁ store₂ hkept₂ fun hnot => ?_
        have hquiet := (Bool.not_eq_true' _).mp hnot
        rw [hglobals₂, memory_evalExpr hquiet hresult, ← hrep₁.globals]
      refine (evaluates_binary (hextends.trans (e₁.trans e₂)) hlater hstill hstays₂.now
        hglobals₂).after (hruns₁.trans hruns₂) ?_
      exact (Kept.refl _ store).trans (hkept₁.trans hkept₂ e₁.room) hroom

/-- **STRICT OPERATORS** evaluate the left operand first. -/
theorem expresses_strict (op : BinaryOp) (hlhs : Expresses world args final scope lhs)
    (hrhs : Expresses world args final scope rhs) :
    Expresses world args final scope (.binary (.strict op) lhs rhs) := by
  intro target state memory store htidy hfits hlater hrep
  rw [lowerExpr_strict] at hlater ⊢
  rw [evalExpr]
  let s₁ := targetOrFresh target state
  let s₂ := lowerExpr scope lhs none s₁.2
  have e₁ : State.Extends state s₁.2 := extending_targetOrFresh target state htidy
  have e₂ : State.Extends s₁.2 s₂.2 := extending_lowerExpr scope lhs none s₁.2 e₁.tidy
  have l₂ : Later s₂.2 final :=
    Later.of_extends (extending_lowerOperator scope op rhs s₁.1 s₂.1 s₂.2 e₂.tidy) hlater
  have hquiet : Runs world args final 0 ⟨state, store, memory.calls⟩
      ⟨s₁.2, store, memory.calls⟩ := runs_silent (silent_targetOrFresh target) state store _
  have hleft := hlhs none e₁.tidy (hfits.mono e₁) l₂ hrep
  cases hresult : evalExpr world lhs memory with
  | error ending =>
      rw [hresult] at hleft
      exact hquiet.ends hleft
  | ok value =>
      obtain ⟨a, memory₁⟩ := value
      rw [hresult] at hleft
      obtain ⟨store₁, hkept₁, hglobals₁, hruns₁, hstays₁⟩ := hleft
      have hkept : Kept state.room store store₁ := (Kept.refl _ store).trans hkept₁ e₁.room
      exact (evaluates_operator hrhs e₂ (hfits.mono (e₁.trans e₂)) (e₁.trans e₂).room hlater
        (hrep.kept hfits hkept (vars_evalExpr hresult) hglobals₁) hstays₁).after
          (hquiet.trans hruns₁) hkept

/-! ### Short-circuit operators -/

/-- The left operand of a short-circuit operator: it comes to a fresh variable, and there
    is a label for the end of the operator. -/
def lowerDecider (scope : Scope) (lhs : Expr) : Lower (Loc × Label) := do
  let dest ← freshResult
  let done ← build (·.newLabel)
  let _ ← lowerExpr scope lhs (some dest)
  return (dest, done)

/-- The part of a short-circuit operator in front of its test. -/
theorem extending_lowerDecider (scope : Scope) (lhs : Expr) : Extending (lowerDecider scope lhs) :=
  extending_freshResult.bind fun dest => extending_newLabel.bind fun done =>
    (extending_lowerExpr scope lhs (some dest)).bind fun _ => extending_pure (dest, done)

/-- The label behind a short-circuit operator is not placed yet. -/
theorem unplaced_lowerDecider {state : State} (htidy : state.builder.Tidy) :
    (lowerDecider scope lhs state).2.builder.body.labels[
      (lowerDecider scope lhs state).1.2.index]? = some none := by
  have e₁ := extending_freshResult state htidy
  have e₂ := extending_newLabel (freshResult state).2 e₁.tidy
  exact (extending_lowerExpr scope lhs (some (freshResult state).1) _ e₂.tidy).builder.unplaced
    (newLabel_unplaced (freshResult state).2)

/-- The result of a short-circuit operator is in the table. -/
theorem room_lowerDecider {state : State} (htidy : state.builder.Tidy) :
    (lowerDecider scope lhs state).1.1.index < (lowerDecider scope lhs state).2.room := by
  have e₁ := extending_freshResult state htidy
  have e₂ := extending_newLabel (freshResult state).2 e₁.tidy
  have e₃ := extending_lowerExpr scope lhs (some (freshResult state).1) _ e₂.tidy
  refine Nat.lt_of_lt_of_le ?_ (e₂.trans e₃).room
  rw [room_freshResult]
  exact Nat.lt_succ_self _

/-- The result of a short-circuit operator is a local variable. -/
theorem location_lowerDecider {state : State} (htidy : state.builder.Tidy)
    (hlater : Later (lowerDecider scope lhs state).2 final) :
    ∃ name, final.builder.body.locations[(lowerDecider scope lhs state).1.1.index]? =
      some (.localVar name) := by
  have e₁ := extending_freshResult state htidy
  have e₂ := extending_newLabel (freshResult state).2 e₁.tidy
  have e₃ := extending_lowerExpr scope lhs (some (freshResult state).1) _ e₂.tidy
  exact location_freshResult (Later.of_extends (e₂.trans e₃) hlater)

/-- What the left operand leaves behind. -/
theorem runs_lowerDecider (hlhs : Expresses world args final scope lhs) {state : State}
    {memory : Memory} {store : Store} (htidy : state.builder.Tidy) (hfits : Fits state scope.vars)
    (hlater : Later (lowerDecider scope lhs state).2 final)
    (hrep : Represents scope.vars memory store) :
    match evalExpr world lhs memory with
    | .error ending => Ends world args final ⟨state, store, memory.calls⟩ ending
    | .ok (word, memory') => ∃ store', Kept state.room store store' ∧
        Represents scope.vars memory' store' ∧
        store'.locals (lowerDecider scope lhs state).1.1 = some word ∧
        Runs world args final 0 ⟨state, store, memory.calls⟩
          ⟨(lowerDecider scope lhs state).2, store', memory'.calls⟩ := by
  let s₁ := freshResult state
  let s₂ := build (·.newLabel) s₁.2
  have e₁ : State.Extends state s₁.2 := extending_freshResult state htidy
  have e₂ : State.Extends s₁.2 s₂.2 := extending_newLabel s₁.2 e₁.tidy
  obtain ⟨name, hdest⟩ := location_lowerDecider htidy hlater
  have hquiet : Runs world args final 0 ⟨state, store, memory.calls⟩ ⟨s₂.2, store, memory.calls⟩ :=
    (runs_silent silent_freshResult state store _).trans
      (runs_silent silent_newLabel s₁.2 store _)
  have hleft := hlhs (some s₁.1) e₂.tidy (hfits.mono (e₁.trans e₂)) hlater hrep
  cases hresult : evalExpr world lhs memory with
  | error ending =>
      rw [hresult] at hleft
      exact hquiet.ends hleft
  | ok value =>
      obtain ⟨word, memory₁⟩ := value
      rw [hresult] at hleft
      obtain ⟨store₁, hkept₁, hglobals₁, harrives₁⟩ := hleft
      have hkept : Kept state.room store (store₁.setLocal s₁.1 word) :=
        ((Kept.refl _ store).trans hkept₁ (e₁.trans e₂).room).setLocal (Nat.le_refl _) word
      exact ⟨_, hkept, hrep.kept hfits hkept (vars_evalExpr hresult) hglobals₁,
        Store.setLocal_locals_same _ _ _,
        hquiet.trans (harrives₁ _ (written_of_local hdest store₁ word))⟩

/-- **CONJUNCTIONS** go on if the left operand is not zero. -/
theorem expresses_and (hlhs : Expresses world args final scope lhs)
    (hrhs : Expresses world args final scope rhs) :
    Expresses world args final scope (.binary .and lhs rhs) := by
  intro target state memory store htidy hfits hlater hrep
  rw [lowerExpr] at hlater ⊢
  rw [evalExpr]
  let s₁ := lowerDecider scope lhs state
  have e₁ : State.Extends state s₁.2 := extending_lowerDecider scope lhs state htidy
  have hunplaced := @unplaced_lowerDecider scope lhs state htidy
  have hroom := @room_lowerDecider scope lhs state htidy
  have l₁ : Later s₁.2 final := later_lowerUnless e₁.tidy hunplaced hlater
  obtain ⟨name, hdest⟩ := location_lowerDecider htidy l₁
  have hleft := runs_lowerDecider hlhs htidy hfits l₁ hrep
  cases hresult : evalExpr world lhs memory with
  | error ending =>
      rw [hresult] at hleft
      exact hleft
  | ok value =>
      obtain ⟨a, memory₁⟩ := value
      rw [hresult] at hleft
      obtain ⟨store₁, hkept₁, hrep₁, hheld, hruns₁⟩ := hleft
      have hdecides := (stays_local hdest hroom hheld :
        Stays world args final s₁.2.room _ s₁.1.1 a false).now
      refine (evaluates_unless e₁.tidy hunplaced hlater hdest (Nat.le_refl _) hroom hrep₁.globals
        hdecides hheld ?_).after hruns₁ hkept₁
      intro state' htidy' hextends hlater'
      exact hrhs (some s₁.1.1) htidy' (hfits.mono (e₁.trans hextends)) hlater' hrep₁

/-- The test of an operator that is decided by a left operand other than zero. -/
def lowerInverse (dest : Loc) : Lower Loc := do
  let inverse ← freshResult
  let value ← build (·.unary .not dest)
  emit (·.save value inverse)
  return inverse

theorem extending_lowerInverse (dest : Loc) : Extending (lowerInverse dest) :=
  extending_freshResult.bind fun inverse => (extending_unary .not dest).bind fun value =>
    (extending_save value inverse).bind fun _ => extending_pure inverse

/-- The inverse of a condition is computed beside it. -/
theorem runs_lowerInverse {state : State} {dest : Loc} {word : Word} {store : Store}
    (htidy : state.builder.Tidy) (hlater : Later (lowerInverse dest state).2 final)
    (hread : contents world args final store dest = some word) (calls : List CallEvent) :
    Runs world args final 0 ⟨state, store, calls⟩ ⟨(lowerInverse dest state).2,
        store.setLocal (lowerInverse dest state).1 (UnaryOp.not.apply word), calls⟩ ∧
      contents world args final
        (store.setLocal (lowerInverse dest state).1 (UnaryOp.not.apply word))
        (lowerInverse dest state).1 = some (UnaryOp.not.apply word) := by
  let s₁ := freshResult state
  let s₂ := build (·.unary .not dest) s₁.2
  have e₁ : State.Extends state s₁.2 := extending_freshResult state htidy
  have e₂ : State.Extends s₁.2 s₂.2 := extending_unary .not dest s₁.2 e₁.tidy
  have l₂ : Later s₂.2 final := Later.of_extends (extending_save s₂.1 s₁.1 s₂.2 e₂.tidy) hlater
  obtain ⟨name, hinverse⟩ := location_freshResult (Later.of_extends e₂ l₂)
  constructor
  · exact ((runs_silent silent_freshResult state store calls).trans
      (runs_silent (silent_unary .not dest) s₁.2 store calls)).trans
        ((runs_save e₂.tidy hlater (evaluateAt_unary calls l₂ hread)
          (written_of_local hinverse _ _)).mono (Nat.zero_le 1))
  · exact (contents_of_local hinverse _).trans (Store.setLocal_locals_same _ _ _)

/-- The inverse of a word is zero exactly if the word is not. -/
theorem unless_inverse {α : Type} (word : Word) (first second : α) :
    (if UnaryOp.not.apply word = 0 then first else second) =
      if word = 0 then second else first := by
  by_cases hword : word = 0
  · have hone : UnaryOp.not.apply word ≠ 0 := by rw [hword]; decide
    rw [if_neg hone, if_pos hword]
  · have hzero : UnaryOp.not.apply word = 0 := by
      show truth (decide (word = 0)) = 0
      rw [decide_eq_false hword]
      rfl
    rw [if_pos hzero, if_neg hword]

/-- **DISJUNCTIONS** go on if the left operand is zero. -/
theorem expresses_or (hlhs : Expresses world args final scope lhs)
    (hrhs : Expresses world args final scope rhs) :
    Expresses world args final scope (.binary .or lhs rhs) := by
  intro target state memory store htidy hfits hlater hrep
  rw [lowerExpr] at hlater ⊢
  rw [evalExpr]
  let s₁ := lowerDecider scope lhs state
  let s₂ := lowerInverse s₁.1.1 s₁.2
  have e₁ : State.Extends state s₁.2 := extending_lowerDecider scope lhs state htidy
  have e₂ : State.Extends s₁.2 s₂.2 := extending_lowerInverse s₁.1.1 s₁.2 e₁.tidy
  have hunplaced : s₂.2.builder.body.labels[s₁.1.2.index]? = some none :=
    e₂.builder.unplaced (unplaced_lowerDecider htidy)
  have hroom := @room_lowerDecider scope lhs state htidy
  have l₂ : Later s₂.2 final := later_lowerUnless e₂.tidy hunplaced hlater
  have l₁ : Later s₁.2 final := Later.of_extends e₂ l₂
  obtain ⟨name, hdest⟩ := location_lowerDecider htidy l₁
  have hleft := runs_lowerDecider hlhs htidy hfits l₁ hrep
  cases hresult : evalExpr world lhs memory with
  | error ending =>
      rw [hresult] at hleft
      exact hleft
  | ok value =>
      obtain ⟨a, memory₁⟩ := value
      rw [hresult] at hleft
      obtain ⟨store₁, hkept₁, hrep₁, hheld, hruns₁⟩ := hleft
      have hread : contents world args final store₁ s₁.1.1 = some a :=
        (contents_of_local hdest store₁).trans hheld
      obtain ⟨hinvert, htest⟩ := runs_lowerInverse e₁.tidy l₂ hread memory₁.calls
      -- the test is a location of its own, so the left operand is not overwritten
      let store₂ := store₁.setLocal s₂.1 (UnaryOp.not.apply a)
      have hkept₂ : Kept s₁.2.room store₁ store₂ :=
        (Kept.refl _ store₁).setLocal (Nat.le_refl _) _
      have hrep₂ : Represents scope.vars memory₁ store₂ :=
        hrep₁.kept (hfits.mono e₁) hkept₂ rfl hrep₁.globals
      have hwhole := (evaluates_unless e₂.tidy hunplaced hlater hdest (Nat.le_refl _)
        (Nat.lt_of_lt_of_le hroom e₂.room) hrep₂.globals htest
        ((hkept₂ _ hroom).trans hheld) (fun htidy' hextends hlater' =>
          hrhs (some s₁.1.1) htidy' (hfits.mono (e₁.trans (e₂.trans hextends))) hlater'
            hrep₂)).after (hruns₁.trans hinvert) (hkept₁.trans hkept₂ e₁.room)
      rw [unless_inverse] at hwhole
      exact hwhole

/-! ### Operators with one operand, and calls -/

/-- **UNARY OPERATORS** are applied to the value of their operand. -/
theorem expresses_unary (op : UnaryOp) {operand : Expr}
    (hoperand : Expresses world args final scope operand) :
    Expresses world args final scope (.unary op operand) := by
  intro target state memory store htidy hfits hlater hrep
  rw [lowerExpr] at hlater ⊢
  rw [evalExpr]
  let s₁ := targetOrFresh target state
  let s₂ := lowerExpr scope operand none s₁.2
  let s₃ := build (·.unary op s₂.1) s₂.2
  have e₁ : State.Extends state s₁.2 := extending_targetOrFresh target state htidy
  have e₂ : State.Extends s₁.2 s₂.2 := extending_lowerExpr scope operand none s₁.2 e₁.tidy
  have e₃ : State.Extends s₂.2 s₃.2 := extending_unary op s₂.1 s₂.2 e₂.tidy
  have l₃ : Later s₃.2 final := Later.of_extends (extending_save s₃.1 s₁.1 s₃.2 e₃.tidy) hlater
  have l₂ : Later s₂.2 final := Later.of_extends e₃ l₃
  have hquiet : Runs world args final 0 ⟨state, store, memory.calls⟩
      ⟨s₁.2, store, memory.calls⟩ := runs_silent (silent_targetOrFresh target) state store _
  have hvalue := hoperand none e₁.tidy (hfits.mono e₁) l₂ hrep
  cases hresult : evalExpr world operand memory with
  | error ending =>
      rw [hresult] at hvalue
      exact hquiet.ends hvalue
  | ok value =>
      obtain ⟨word, memory₁⟩ := value
      rw [hresult] at hvalue
      obtain ⟨store₁, hkept₁, hglobals₁, hruns₁, hstays₁⟩ := hvalue
      have hunary : Runs world args final 0 ⟨s₂.2, store₁, memory₁.calls⟩
          ⟨s₃.2, store₁, memory₁.calls⟩ := runs_silent (silent_unary op s₂.1) s₂.2 store₁ _
      have hword := evaluateAt_unary memory₁.calls l₃ hstays₁.now
      have hsaved : Evaluates world args final state.room ⟨s₃.2, store₁, memory₁.calls⟩ target
          false (s₁.1, (emit (·.save s₃.1 s₁.1) s₃.2).2) (.ok (op.apply word, memory₁)) :=
        evaluates_save (e₂.trans e₃) hlater hword rfl hglobals₁ rfl
      refine hsaved.after ((hquiet.trans hruns₁).trans hunary) ?_
      exact (Kept.refl _ store).trans hkept₁ e₁.room

/-- The result of a call is saved where it is asked for. -/
theorem expresses_call {call : Call}
    (hcall : ∀ {state : State} {memory : Memory} {store : Store}, state.builder.Tidy →
      Fits state scope.vars → Later (lowerCall scope call state).2 final →
      Represents scope.vars memory store →
      Readies world args final state.room ⟨state, store, memory.calls⟩ (lowerCall scope call state)
        (evalCall world call memory)) :
    Expresses world args final scope (.call call) := by
  intro target state memory store htidy hfits hlater hrep
  rw [lowerExpr] at hlater ⊢
  rw [evalExpr]
  let s₁ := targetOrFresh target state
  let s₂ := lowerCall scope call s₁.2
  have e₁ : State.Extends state s₁.2 := extending_targetOrFresh target state htidy
  have e₂ : State.Extends s₁.2 s₂.2 := extending_lowerCall scope call s₁.2 e₁.tidy
  have l₂ : Later s₂.2 final := Later.of_extends (extending_save s₂.1 s₁.1 s₂.2 e₂.tidy) hlater
  have hquiet : Runs world args final 0 ⟨state, store, memory.calls⟩
      ⟨s₁.2, store, memory.calls⟩ := runs_silent (silent_targetOrFresh target) state store _
  rcases hcall e₁.tidy (hfits.mono e₁) l₂ hrep with ⟨ending, hending, hends⟩ |
    ⟨store₁, calls₁, callee, locs, isExternal, hkept₁, hruns₁, hrecord, hreply⟩
  · rw [hending]
    exact hquiet.ends hends
  · have hvalue : final.builder.body.evaluateAt (settingOf world final.symbols args) store₁
        calls₁ s₂.1 = replied store₁ (evalCall world call memory) := by
      rw [Body.evaluateAt, hrecord]
      exact hreply
    have hruns := hquiet.trans hruns₁
    cases hresult : evalCall world call memory with
    | error ending =>
        rw [hresult] at hvalue
        exact hruns.ends (ends_save e₂.tidy hlater hvalue)
    | ok value =>
        obtain ⟨word, memory₁⟩ := value
        rw [hresult] at hvalue
        refine (evaluates_save e₂ hlater hvalue rfl rfl rfl).after hruns ?_
        exact (Kept.refl _ store).trans hkept₁ e₁.room

end

/-! ## Expressions -/

mutual

/-- **EXPRESSIONS**: a lowered expression computes the value of the
    expression, makes its calls, and ends where it ends. -/
theorem evaluates_lowerExpr (scope : Scope) : ∀ expr : Expr, Expresses world args final scope expr
  | .int value | .bool value => by
      intro target state memory store htidy hfits hlater hrep
      rw [lowerExpr] at hlater ⊢
      rw [evalExpr]
      exact evaluates_constant htidy hlater hrep.globals
  | .var name => by
      intro target state memory store htidy hfits hlater hrep
      rw [lowerExpr] at hlater ⊢
      rw [evalExpr]
      exact evaluates_name htidy hfits hlater hrep
  | .binary (.strict op) lhs rhs =>
      expresses_strict op (evaluates_lowerExpr scope lhs) (evaluates_lowerExpr scope rhs)
  | .binary .and lhs rhs =>
      expresses_and (evaluates_lowerExpr scope lhs) (evaluates_lowerExpr scope rhs)
  | .binary .or lhs rhs =>
      expresses_or (evaluates_lowerExpr scope lhs) (evaluates_lowerExpr scope rhs)
  | .unary op operand => expresses_unary op (evaluates_lowerExpr scope operand)
  | .call call => expresses_call fun htidy hfits hlater hrep =>
      readies_lowerCall scope call htidy hfits hlater hrep

/-- **CALLS** have their arguments at hand. -/
theorem readies_lowerCall (scope : Scope) : ∀ (call : Call) {state : State} {memory : Memory}
    {store : Store}, state.builder.Tidy → Fits state scope.vars →
    Later (lowerCall scope call state).2 final → Represents scope.vars memory store →
    Readies world args final state.room ⟨state, store, memory.calls⟩ (lowerCall scope call state)
      (evalCall world call memory)
  | .mk name actuals isCallout, state, memory, store, htidy, hfits, hlater, hrep => by
      rw [lowerCall] at hlater ⊢
      rw [evalCall]
      let s₁ := lowerArgs scope actuals state
      let s₂ := intern name s₁.2
      have e₁ : State.Extends state s₁.2 := extending_lowerArgs scope actuals state htidy
      have e₂ : State.Extends s₁.2 s₂.2 := extending_intern name s₁.2 e₁.tidy
      have e₃ : State.Extends s₂.2 (build (·.call s₂.1 s₁.1 isCallout) s₂.2).2 :=
        extending_build (fun _ h => Builder.extends_create h _) s₂.2 e₂.tidy
      have l₂ : Later s₂.2 final := Later.of_extends e₃ hlater
      have hargs : Supplies world args final state.room ⟨state, store, memory.calls⟩ s₁
          (evalArgs world actuals memory) :=
        supplies_lowerArgs scope actuals htidy hfits (Later.of_extends e₂ l₂) hrep
      cases hwords : evalArgs world actuals memory with
      | error ending =>
          rw [hwords] at hargs
          exact Or.inl ⟨ending, rfl, hargs⟩
      | ok value =>
          obtain ⟨words, memory₁⟩ := value
          rw [hwords] at hargs
          obtain ⟨store₁, hkept₁, hglobals₁, hruns₁, hvalues⟩ := hargs
          refine Or.inr ⟨store₁, memory₁.calls, s₂.1, s₁.1, isCallout, hkept₁, ?_, ?_, ?_⟩
          · exact hruns₁.trans (runs_of_quiet rfl rfl store₁ memory₁.calls)
          · exact records_create hlater.grows
          · show _ = replied store₁ (memory₁.callOut world name words)
            have htarget : (settingOf world final.symbols args).routine s₂.1 = name := by
              show (final.symbols.text? (intern name s₁.2).1).getD "" = name
              rw [l₂.text, Option.getD_some]
            rw [Body.callOut, hvalues]
            simp only [Body.callWith, Memory.callOut, htarget, hglobals₁]
            show (match (world.environment _).result with | .ok value => _ | .error abort => _) = _
            cases (world.environment (⟨name, words, memory₁.globals⟩ :: memory₁.calls)).result with
            | ok word => rfl
            | error abort => rfl

/-- **ARGUMENTS** are evaluated from left to right, and all their values are at hand at
    the call. -/
theorem supplies_lowerArgs (scope : Scope) : ∀ (actuals : List Arg) {state : State}
    {memory : Memory} {store : Store}, state.builder.Tidy → Fits state scope.vars →
    Later (lowerArgs scope actuals state).2 final → Represents scope.vars memory store →
    Supplies world args final state.room ⟨state, store, memory.calls⟩
      (lowerArgs scope actuals state) (evalArgs world actuals memory)
  | [], state, memory, store, htidy, hfits, hlater, hrep => by
      rw [lowerArgs, evalArgs]
      exact ⟨store, Kept.refl _ _, hrep.globals, Runs.refl _, rfl⟩
  | .text value :: rest, state, memory, store, htidy, hfits, hlater, hrep => by
      rw [lowerArgs] at hlater ⊢
      rw [evalArgs]
      let s₁ := intern value state
      let s₂ := build (·.literal s₁.1) s₁.2
      have e₁ : State.Extends state s₁.2 := extending_intern value state htidy
      have e₂ : State.Extends s₁.2 s₂.2 :=
        extending_build (fun _ h => Builder.extends_intern h _) s₁.2 e₁.tidy
      have l₂ : Later s₂.2 final :=
        Later.of_extends (extending_lowerArgs scope rest s₂.2 e₂.tidy) hlater
      -- the text is interned, so it has the same address at the end
      have htext : final.symbols.text? s₁.1 = some value := (Later.of_extends e₂ l₂).text
      have hloc : final.builder.body.locations[s₂.1.index]? = some (.literal s₁.1) :=
        location_internLoc l₂
      have hstays : Stays world args final s₂.2.room store s₂.1 (world.literal value) false := by
        intro store' _ _
        simp only [contents, Body.read, hloc, Option.bind_some, Body.readAs, settingOf, htext,
          Option.getD_some]
      have hquiet : Runs world args final 0 ⟨state, store, memory.calls⟩
          ⟨s₂.2, store, memory.calls⟩ :=
        (runs_of_quiet rfl rfl store memory.calls : Runs world args final 0 _ ⟨s₁.2, _, _⟩).trans
          (runs_silent (silent_internLoc (.literal s₁.1)) s₁.2 store memory.calls)
      exact supplies_cons hquiet (Kept.refl _ _) (e₁.trans e₂).room hrep.globals hstays nofun
        (supplies_lowerArgs scope rest e₂.tidy (hfits.mono (e₁.trans e₂)) hlater hrep)
  | .expr (.var name) :: rest, state, memory, store, htidy, hfits, hlater, hrep => by
      rw [lowerArgs] at hlater ⊢
      rw [evalArgs, evalExpr]
      cases hcall : rest.any Arg.hasCall with
      -- no call follows, so no field changes before the call is made
      | false =>
          rw [hcall] at hlater
          let s₁ := resolve scope name state
          have e₁ : State.Extends state s₁.2 := extending_resolve scope name state htidy
          have l₁ : Later s₁.2 final :=
            Later.of_extends (extending_lowerArgs scope rest s₁.2 e₁.tidy) hlater
          obtain ⟨store₁, hkept₁, hglobals₁, hruns₁, hstays₁⟩ :=
            (evaluates_name htidy hfits l₁ hrep : Evaluates world args final state.room
              ⟨state, store, memory.calls⟩ none true s₁ (.ok (memory.get name, memory)))
          exact supplies_cons hruns₁ hkept₁ e₁.room hglobals₁ hstays₁ (fun _ => hcall)
            (supplies_lowerArgs scope rest e₁.tidy (hfits.mono e₁) hlater
              (hrep.kept hfits hkept₁ rfl hglobals₁))
      -- a call follows that may write the variable, so its value is kept in a new location
      | true =>
          rw [hcall] at hlater
          let s₁ := freshResult state
          let s₂ := resolve scope name s₁.2
          let s₃ := deliver s₂.1 (some s₁.1) s₂.2
          have e₁ : State.Extends state s₁.2 := extending_freshResult state htidy
          have e₂ : State.Extends s₁.2 s₂.2 := extending_resolve scope name s₁.2 e₁.tidy
          have e₃ : State.Extends s₂.2 s₃.2 := extending_deliver s₂.1 (some s₁.1) s₂.2 e₂.tidy
          have l₃ : Later s₃.2 final :=
            Later.of_extends (extending_lowerArgs scope rest s₃.2 e₃.tidy) hlater
          have l₁ : Later s₁.2 final := Later.of_extends (e₂.trans e₃) l₃
          obtain ⟨symbol, hsymbol⟩ := location_freshResult l₁
          have hroom : state.room < s₃.2.room :=
            Nat.lt_of_lt_of_le (by rw [room_freshResult]; exact Nat.lt_succ_self _)
              (e₂.trans e₃).room
          obtain ⟨store₁, hkept₁, hglobals₁, harrives₁⟩ :=
            (evaluates_name e₁.tidy (hfits.mono e₁) l₃ hrep : Evaluates world args final
              s₁.2.room ⟨s₁.2, store, memory.calls⟩ (some s₁.1) true s₃
              (.ok (memory.get name, memory)))
          have hruns := (runs_silent silent_freshResult state store memory.calls).trans
            (harrives₁ _ (written_of_local hsymbol store₁ (memory.get name)))
          have hkept : Kept state.room store (store₁.setLocal s₁.1 (memory.get name)) :=
            ((Kept.refl _ store).trans hkept₁ e₁.room).setLocal (Nat.le_refl _) _
          have hfits₃ := hfits.mono (e₁.trans (e₂.trans e₃))
          have hrep₁ : Represents scope.vars memory (store₁.setLocal s₁.1 (memory.get name)) :=
            hrep.kept hfits hkept rfl hglobals₁
          exact supplies_cons hruns hkept (Nat.le_of_lt hroom) hrep₁.globals
            (stays_freshResult l₁ hroom _ _ false) nofun
            (supplies_lowerArgs scope rest e₃.tidy hfits₃ hlater hrep₁)
  | .expr (.int value) :: rest, state, memory, store, htidy, hfits, hlater, hrep
  | .expr (.bool value) :: rest, state, memory, store, htidy, hfits, hlater, hrep
  | .expr (.call call) :: rest, state, memory, store, htidy, hfits, hlater, hrep
  | .expr (.binary op lhs rhs) :: rest, state, memory, store, htidy, hfits, hlater, hrep
  | .expr (.unary op operand) :: rest, state, memory, store, htidy, hfits, hlater, hrep => by
      exact supplies_expr rfl htidy hfits hlater hrep (evaluates_lowerExpr scope _ none)
        (supplies_lowerArgs scope rest)

end

end

end DecafBackend.Lowering
