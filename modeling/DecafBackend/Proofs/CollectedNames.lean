import DecafBackend.Proofs.StackPaths
import DecafBackend.Proofs.TextLabels

/-! # What emission collects

    Emission collects texts and external names in a session while it writes code.
    What a statement asks of the sections can be read off the records that are
    evaluated with it; emission adds just that, whatever the body looks like, and
    all labels in the code are those of collected texts and of declared fields, or
    come from jumps.

    * `Body.Evaluates`, `Body.Requires` — what a statement asks for
    * `Collects`, `Collecting` — what a step of emission adds, and how steps combine
    * `Collecting.value`, `Collecting.statement` — values and statements
    * `emitMethod_collects` — methods -/

namespace DecafBackend

/-! ## Names in instructions -/

/-- The label of the data section that an operand names. -/
def Operand.dataLabel? : Operand → Option String
  | data label => some label
  | reg _ | imm _ | frame _ => none

/-- The operands of an instruction that may be in memory. -/
def Instruction.operands : Instruction → List Operand
  | mov dest src | alu _ dest src => [dest, src]
  | push operand => [operand]
  | _ => []

/-- The labels of the data section that an instruction names. -/
def Instruction.dataLabels (instruction : Instruction) : List String :=
  instruction.operands.filterMap Operand.dataLabel?

/-- The label whose address an instruction takes. -/
def Instruction.addressed? : Instruction → Option String
  | lea _ symbol => some symbol
  | _ => none

/-- The names in an instruction are those of declared fields and collected texts. -/
structure Instruction.Linked (session : Session) (instruction : Instruction) : Prop where
  data : ∀ label ∈ instruction.dataLabels, ∃ name, session.global? name = some label
  text : ∀ label, instruction.addressed? = some label → ∃ text, session.label? text = some label

/-- An instruction that names nothing outside of its function. -/
structure Instruction.Plain (instruction : Instruction) : Prop where
  data : instruction.dataLabels = []
  text : instruction.addressed? = none

/-- An instruction that refers to nothing is linked in every session. -/
theorem Instruction.Plain.linked {instruction : Instruction} (h : instruction.Plain)
    (session : Session) : instruction.Linked session where
  data label hlabel := by
    rw [h.data] at hlabel
    cases hlabel
  text label hlabel := by
    rw [h.text] at hlabel
    cases hlabel

/-- Instructions stay linked as the session grows. -/
theorem Instruction.Linked.mono {early late : Session} {instruction : Instruction}
    (h : instruction.Linked early) (hgrows : early.Grows late) : instruction.Linked late where
  data label hlabel := by
    obtain ⟨name, hname⟩ := h.data label hlabel
    exact ⟨name, (hgrows.global? name).trans hname⟩
  text label hlabel := by
    obtain ⟨text, htext⟩ := h.text label hlabel
    exact ⟨text, hgrows.label? htext⟩

/-! ## What records ask for -/

/-- The locations that a record loads or passes to a call. -/
def Record.fetched : Record → List Loc
  | load src => [src]
  | call _ args _ _ => args
  | _ => []

/-- The external routine that a record calls. -/
def Record.external? : Record → Option Symbol
  | call target _ true _ => some target
  | _ => none

/-- Something that a record asks of the program around it. -/
inductive Demand
  /-- A literal text. -/
  | text (text : String)
  /-- An external name. -/
  | external (name : String)
  /-- A place to jump to. -/
  | target (name : String)
  /-- A place that jumps go to. -/
  | place (name : String)

namespace Body

/-- An access to a literal text. -/
def Quotes (body : Body) (symbols : SymbolPool) (loc : Loc) (text : String) : Prop :=
  ∃ symbol, body.location loc = .ok (.literal symbol) ∧ symbols.text symbol = .ok text

/-- What a record itself looks up.  A text that is bound to a register is not asked
    for. -/
def Demands (body : Body) (symbols : SymbolPool) (inst : Inst) (record : Record) : Demand → Prop
  | .text text => ∃ loc ∈ record.fetched, body.bindings.get? ⟨inst, loc⟩ = none ∧
    body.Quotes symbols loc text
  | .external name => ∃ symbol, record.external? = some symbol ∧ symbols.text symbol = .ok name
  | .target _ | .place _ => False

/-- What only a statement asks for: places that it marks or jumps to, and the routine
    that ends the process. -/
def Marks (body : Body) (stmt : Inst) : Demand → Prop
  | .target name => ∃ record label, body.record stmt = .ok record ∧
    record.target? = some label ∧ name = Emission.labelName label
  | .place name => ∃ label, body.record stmt = .ok (.label label) ∧ name = Emission.labelName label
  | .external name => (∃ code, body.record stmt = .ok (.exit code)) ∧ name = Emission.exitRoutine
  | .text _ => False

/-- A record is evaluated with another one: it is that record, or belongs to one of
    its operands. -/
inductive Evaluates (body : Body) : Inst → Inst → Prop
  /-- A record comes with itself. -/
  | self (inst : Inst) : Evaluates body inst inst
  /-- What comes with an operand comes with the record. -/
  | operand {inst part below : Inst} {record : Record} (hrecord : body.record inst = .ok record)
      (hpart : part ∈ record.operands) (hbelow : Evaluates body part below) :
      Evaluates body inst below

/-- What a record asks for, together with its operands. -/
def Requires (body : Body) (symbols : SymbolPool) (inst : Inst) (demand : Demand) : Prop :=
  ∃ below record, body.Evaluates inst below ∧ body.record below = .ok record ∧
    body.Demands symbols below record demand

/-- What a record requires is what it demands, or what its operands require. -/
theorem requires_iff {body : Body} {symbols : SymbolPool} {inst : Inst} {record : Record}
    (hrecord : body.record inst = .ok record) {demand : Demand} :
    body.Requires symbols inst demand ↔ body.Demands symbols inst record demand ∨
      ∃ part ∈ record.operands, body.Requires symbols part demand := by
  constructor
  · rintro ⟨below, found, hbelow, hfound, hdemands⟩
    cases hbelow with
    | self =>
        cases hrecord.symm.trans hfound
        exact Or.inl hdemands
    | operand hrecord' hpart hbelow =>
        cases hrecord.symm.trans hrecord'
        exact Or.inr ⟨_, hpart, below, found, hbelow, hfound, hdemands⟩
  · rintro (hdemands | ⟨part, hpart, below, found, hbelow, hfound, hdemands⟩)
    · exact ⟨inst, record, .self inst, hrecord, hdemands⟩
    · exact ⟨below, found, .operand hrecord hpart hbelow, hfound, hdemands⟩

end Body

namespace Emission

/-! ## Steps -/

/-- What a step adds to a state: texts and external names that are asked for, and code
    that names what has been collected. -/
structure Collects (state after : State) (demands : Demand → Prop) : Prop where
  grows : state.session.Grows after.session
  nodup : state.session.texts.Nodup → after.session.texts.Nodup
  texts : ∀ text, text ∈ after.session.texts ↔
    text ∈ state.session.texts ∨ demands (.text text)
  externs : ∀ name, name ∈ after.session.externs ↔
    name ∈ state.session.externs ∨ demands (.external name)
  code : ∃ code, after.code.toList = state.code.toList ++ code ∧
    (∀ instruction ∈ code, instruction.Linked after.session ∧
      ∀ name, instruction.target? = some name → demands (.target name)) ∧
    ∀ name, demands (.place name) → Instruction.label name ∈ code

/-- Nothing is asked for. -/
def Nothing : Demand → Prop := fun _ => False

/-- Only scratch registers are taken or given back. -/
theorem Collects.of_eq {state after : State} (hsession : after.session = state.session)
    (hcode : after.code = state.code) : Collects state after Nothing where
  grows := hsession ▸ .refl _
  nodup h := hsession ▸ h
  texts _ := by rw [hsession]; exact (or_iff_left id).symm
  externs _ := by rw [hsession]; exact (or_iff_left id).symm
  code := ⟨[], by rw [hcode, List.append_nil], List.forall_mem_nil _, fun _ h => h.elim⟩

/-- Collecting goes from state to state. -/
theorem Collects.trans {a b c : State} {first second : Demand → Prop} (h₁ : Collects a b first)
    (h₂ : Collects b c second) : Collects a c fun demand => first demand ∨ second demand where
  grows := h₁.grows.trans h₂.grows
  nodup h := h₂.nodup (h₁.nodup h)
  texts text := by rw [h₂.texts, h₁.texts, or_assoc]
  externs name := by rw [h₂.externs, h₁.externs, or_assoc]
  code := by
    obtain ⟨code, hcode, hall, hplaces⟩ := h₁.code
    obtain ⟨code', hcode', hall', hplaces'⟩ := h₂.code
    refine ⟨code ++ code', by rw [hcode', hcode, List.append_assoc], fun i hi => ?_, ?_⟩
    · rcases List.mem_append.mp hi with hi | hi
      · obtain ⟨hlinked, htarget⟩ := hall i hi
        exact ⟨hlinked.mono h₂.grows, fun name hname => Or.inl (htarget name hname)⟩
      · obtain ⟨hlinked, htarget⟩ := hall' i hi
        exact ⟨hlinked, fun name hname => Or.inr (htarget name hname)⟩
    · rintro name (hplace | hplace)
      · exact List.mem_append_left _ (hplaces name hplace)
      · exact List.mem_append_right _ (hplaces' name hplace)

/-- Demands may be said in other words. -/
theorem Collects.congr {state after : State} {demands demands' : Demand → Prop}
    (h : Collects state after demands) (hsame : ∀ demand, demands demand ↔ demands' demand) :
    Collects state after demands' := by
  obtain rfl : demands = demands' := funext fun demand => propext (hsame demand)
  exact h

/-- All that a step adds, in whatever state it is taken. -/
def Collecting {α : Type} (context : Context) (step : Emit α) (demands : Demand → Prop) : Prop :=
  ∀ state result after, Gives step context state result after → Collects state after demands

section

variable {α β : Type} {context : Context} {demands : Demand → Prop}

/-- The demands of a step may be said in other words. -/
theorem Collecting.congr {step : Emit α} {demands' : Demand → Prop}
    (h : Collecting context step demands) (hsame : ∀ demand, demands demand ↔ demands' demand) :
    Collecting context step demands' :=
  fun state result after hgives => (h state result after hgives).congr hsame

/-- Steps in a row collect what both of them demand. -/
theorem Collecting.bind {step : Emit α} {next : α → Emit β} {later : Demand → Prop}
    (h : Collecting context step demands) (hnext : ∀ a, Collecting context (next a) later) :
    Collecting context (step >>= next) fun demand => demands demand ∨ later demand := by
  intro state result after hgives
  obtain ⟨a, middle, hstep, hrest⟩ := hgives.bind
  exact (h _ _ _ hstep).trans (hnext a _ _ _ hrest)

/-- A step that asks for nothing may come first. -/
theorem Collecting.skip {step : Emit α} {next : α → Emit β}
    (h : Collecting context step Nothing) (hnext : ∀ a, Collecting context (next a) demands) :
    Collecting context (step >>= next) demands :=
  (h.bind hnext).congr fun _ => or_iff_right id

/-- A step that asks for nothing may come last. -/
theorem Collecting.last {step : Emit α} {next : α → Emit β}
    (h : Collecting context step demands) (hnext : ∀ a, Collecting context (next a) Nothing) :
    Collecting context (step >>= next) demands :=
  (h.bind hnext).congr fun _ => or_iff_left id

/-- To give a result collects nothing. -/
theorem Collecting.pure (a : α) : Collecting context (Pure.pure a : Emit α) Nothing := by
  intro state result after hgives
  cases hgives
  exact .of_eq rfl rfl

/-- What stands on the context collects what it does in this one. -/
theorem Collecting.read {next : Context → Emit β}
    (h : Collecting context (next context) demands) :
    Collecting context (MonadReaderOf.read >>= next) demands := h

/-- What stands on a lookup collects what it does with the result. -/
theorem Collecting.lift {x : Checked α} {next : α → Emit β}
    (h : ∀ a, x = .ok a → Collecting context (next a) demands) :
    Collecting context (liftM x >>= next) demands := by
  intro state result after hgives
  obtain ⟨a, middle, hlift, hrest⟩ := hgives.bind
  obtain ⟨hx, rfl⟩ := hlift.lift
  exact h a hx _ _ _ hrest

/-- A step that fails collects whatever is asked. -/
theorem Collecting.malformed (reason : String) :
    Collecting context (malformed reason : Emit α) demands :=
  fun _ _ _ hgives => hgives.malformed.elim

/-- An instruction that is written. -/
theorem Collects.write {state : State} {instruction : Instruction}
    (hlinked : instruction.Linked state.session)
    (hjumps : ∀ name, instruction.target? = some name → demands (.target name))
    (hplaces : ∀ name, demands (.place name) → instruction = .label name)
    (hnone : ∀ text, ¬demands (.text text)) (hnone' : ∀ name, ¬demands (.external name)) :
    Collects state { state with code := state.code.push instruction } demands := by
  refine ⟨.refl _, fun h => h, fun text => (or_iff_left (hnone text)).symm,
    fun name => (or_iff_left (hnone' name)).symm, [instruction], Array.toList_push, ?_, ?_⟩
  · exact List.forall_mem_singleton.mpr ⟨hlinked, hjumps⟩
  · intro name hplace
    rw [hplaces name hplace]
    exact List.mem_singleton_self _

/-- A label is collected as a place. -/
theorem Collecting.label (name : String) :
    Collecting context (Emission.push (.label name)) fun demand => demand = .place name := by
  intro state result after hgives
  cases hgives
  have hplain : (Instruction.label name).Plain := ⟨rfl, rfl⟩
  refine .write (hplain.linked _) (fun _ h => by cases h) (fun other hother => ?_)
    (fun _ h => by cases h) fun _ h => by cases h
  cases hother
  rfl

/-- A jump is collected as a target. -/
theorem Collecting.jump (instruction : Instruction) {name : String} (hplain : instruction.Plain)
    (hjumps : instruction.target? = some name) :
    Collecting context (Emission.push instruction) fun demand => demand = .target name := by
  intro state result after hgives
  cases hgives
  refine .write (hplain.linked _) (fun other hother => ?_) (fun _ h => by cases h)
    (fun _ h => by cases h) fun _ h => by cases h
  cases hjumps.symm.trans hother
  rfl

/-- An instruction that stays within the function. -/
theorem Collects.push {state : State} {instruction : Instruction}
    (hlinked : instruction.Linked state.session) (hstays : instruction.target? = none) :
    Collects state { state with code := state.code.push instruction } Nothing := by
  refine .write hlinked (fun name hname => ?_) (fun _ h => h.elim) (fun _ => id) fun _ => id
  rw [hstays] at hname
  cases hname

/-- An instruction that refers to nothing collects nothing. -/
theorem Collecting.push {instruction : Instruction} (hplain : instruction.Plain)
    (hstays : instruction.target? = none) :
    Collecting context (Emission.push instruction) Nothing := by
  intro state result after hgives
  cases hgives
  exact .push (hplain.linked _) hstays

/-- To take a register collects nothing. -/
theorem Collecting.takeScratch : Collecting context takeScratch Nothing := by
  intro state result after hgives
  obtain ⟨_, _, hget, hgives⟩ := hgives.bind
  cases hget
  split at hgives
  · obtain ⟨_, _, hmodify, hgives⟩ := hgives.bind
    cases hmodify
    cases hgives
    exact .of_eq rfl rfl
  · cases hgives

/-- To give a register back collects nothing. -/
theorem Collecting.release (register : Register) :
    Collecting context (release register) Nothing := by
  intro state result after hgives
  cases hgives
  exact .of_eq rfl rfl

/-- A step under a condition, and what comes after it. -/
theorem Collecting.ifThen {c : Prop} [Decidable c] {step : Emit Unit} {next : Unit → Emit β}
    (hstep : Collecting context step Nothing) (hnext : Collecting context (next ()) demands) :
    Collecting context (if c then step >>= next else next ()) demands := by
  split
  · exact hstep.skip fun _ => hnext
  · exact hnext

/-- Steps for the elements of a list ask for what each of them asks for. -/
theorem Collecting.forM {step : α → Emit Unit} {each : α → Demand → Prop} {list : List α}
    (h : ∀ a ∈ list, Collecting context (step a) (each a)) :
    Collecting context (list.forM step) fun demand => ∃ a ∈ list, each a demand := by
  induction list with
  | nil =>
      refine (Collecting.pure ()).congr fun demand => ⟨False.elim, ?_⟩
      rintro ⟨a, hmem, -⟩
      cases hmem
  | cons a list ih =>
      rw [forM_cons]
      have hrest := ih fun b hb => h b (List.mem_cons_of_mem a hb)
      refine ((h a List.mem_cons_self).bind fun _ => hrest).congr fun demand => ?_
      simp only [List.mem_cons, exists_eq_or_imp]

/-- A traversal with idle steps is idle. -/
theorem Collecting.forM_idle {step : α → Emit Unit} {list : List α}
    (h : ∀ a, Collecting context (step a) Nothing) :
    Collecting context (list.forM step) Nothing := by
  refine (Collecting.forM fun a _ => h a).congr fun demand => ⟨?_, False.elim⟩
  rintro ⟨-, -, hnothing⟩
  exact hnothing

end

/-! ## Accesses -/

/-- What an access asks for: a text, unless it is bound to a register. -/
def Asked (context : Context) (access : Access) : Demand → Prop
  | .text text => context.body.bindings.get? access = none ∧
    context.body.Quotes context.symbols access.loc text
  | _ => False

/-- A place in memory is that of a declared field. -/
theorem Places.names_field {context : Context} {session : Session} {access : Access}
    {operand : Operand} (h : Places context session access operand) {label : String}
    (hlabel : operand.dataLabel? = some label) : ∃ name, session.global? name = some label := by
  cases h with
  | register | slot | constant => cases hlabel
  | field _ _ _ hfield =>
      cases hlabel
      exact ⟨_, hfield⟩

/-- A copy to or from the place of an access. -/
theorem Places.linked {context : Context} {session : Session} {access : Access}
    {operand : Operand} (h : Places context session access operand) (register : Register) :
    (Instruction.mov (.reg register) operand).Linked session ∧
      (Instruction.mov operand (.reg register)).Linked session := by
  refine ⟨⟨fun label hlabel => ?_, fun _ hnone => (by cases hnone)⟩,
    ⟨fun label hlabel => ?_, fun _ hnone => (by cases hnone)⟩⟩
  all_goals
    obtain ⟨part, hpart, hname⟩ := List.mem_filterMap.mp hlabel
    rcases List.mem_pair.mp hpart with rfl | rfl
  · cases hname
  · exact h.names_field hname
  · exact h.names_field hname
  · cases hname

section

variable {context : Context}

/-- A text is collected when its label is asked for. -/
theorem Collects.internText (state : State) (text : String) :
    Collects state { state with session := (state.session.internText text).2 }
      fun demand => demand = .text text where
  grows := (Session.grows_internText state.session text).1
  nodup h := Session.nodup_internText h text
  texts other := by
    rw [Session.mem_internText, Demand.text.injEq]
  externs name := by
    have hsame : (state.session.internText text).2.externs = state.session.externs := by
      rw [Session.internText]
      split <;> rfl
    rw [hsame]
    exact (or_iff_left (fun h => by cases h)).symm
  code := ⟨[], (List.append_nil _).symm, List.forall_mem_nil _, fun _ h => by cases h⟩

/-- What is in memory is copied to a scratch register. -/
theorem Collecting.fetch (access : Access) :
    Collecting context (do
      let src ← storage access
      let out ← Emission.takeScratch
      Emission.push (.mov (.reg out) src)
      return out) Nothing := by
  intro state register after h
  obtain ⟨operand, _, hstorage, h⟩ := h.bind
  obtain ⟨rfl, hplaces⟩ := hstorage.storage (.refl _)
  obtain ⟨out, taken, htake, h⟩ := h.bind
  obtain ⟨_, _, hpush, h⟩ := h.bind
  cases hpush
  cases h
  have htaken := Collecting.takeScratch _ _ _ htake
  have hlinked := (hplaces.linked register).1.mono htaken.grows
  exact (htaken.trans (.push hlinked rfl)).congr fun _ => or_self_iff

/-- An access that is bound to no register asks for its text, if it has one. -/
theorem Collecting.readAccess (access : Access) :
    Collecting context (readAccess access) (Asked context access) := by
  refine .read ?_
  split
  · next register hbound =>
      refine (Collecting.pure register).congr fun demand => ⟨False.elim, fun hasked => ?_⟩
      cases demand with
      | text text => cases hbound.symm.trans hasked.1
      | external | target | place => exact hasked
  · next hunbound =>
      refine .lift fun location hlocation => ?_
      -- an access to anything but a text asks for nothing
      have hidle (hother : ∀ symbol, location ≠ .literal symbol) (demand : Demand) :
          Nothing demand ↔ Asked context access demand := by
        refine ⟨False.elim, fun hasked => ?_⟩
        cases demand with
        | text text =>
            obtain ⟨symbol, hliteral, -⟩ := hasked.2
            cases hlocation.symm.trans hliteral
            exact hother symbol rfl
        | external | target | place => exact hasked
      cases location with
      | localVar | temp | global | constant =>
          exact (Collecting.fetch access).congr (hidle fun _ h => (by cases h))
      | literal symbol =>
          refine .lift fun text htext => ?_
          -- the label of the text is known from here on, so the instruction that loads it
          -- is linked
          intro state register after h
          obtain ⟨label, first, hintern, h⟩ := h.bind
          cases hintern
          obtain ⟨out, taken, htake, h⟩ := h.bind
          obtain ⟨_, _, hpush, h⟩ := h.bind
          cases hpush
          cases h
          have htaken := Collecting.takeScratch _ _ _ htake
          have hlabel := htaken.grows.label? (Session.grows_internText state.session text).2
          have hlinked : (Instruction.lea register (state.session.internText text).1).Linked
              taken.session :=
            ⟨fun _ hnone => (by cases hnone), fun _ hsome => ⟨text, Option.some.inj hsome ▸ hlabel⟩⟩
          refine ((Collects.internText state text).trans
            (htaken.trans (.push hlinked rfl))).congr fun demand => ⟨?_, fun hasked => ?_⟩
          · rintro (rfl | hnothing | hnothing)
            · exact ⟨hunbound, symbol, hlocation, htext⟩
            · exact hnothing.elim
            · exact hnothing.elim
          · cases demand with
            | text other =>
                obtain ⟨-, symbol', hliteral, hother⟩ := hasked
                cases hlocation.symm.trans hliteral
                cases htext.symm.trans hother
                exact Or.inl rfl
            | external | target | place => exact hasked.elim

/-- A save is written to the place of its destination. -/
theorem Collecting.store (save : Inst) (dest : Loc) (register : Register) :
    Collecting context (store save dest register) Nothing := by
  refine .read (.lift fun location _ => ?_)
  split
  · exact .malformed _
  · intro state result after h
    obtain ⟨operand, _, hstorage, h⟩ := h.bind
    obtain ⟨rfl, hplaces⟩ := hstorage.storage (.refl _)
    obtain ⟨_, _, hrelease, h⟩ := h.bind
    cases hrelease
    split at h
    · cases h
      have hstored : (Instruction.mov operand (.reg register)).Linked state.session :=
        (hplaces.linked register).2
      have hfreed :
          Collects state { state with scratch := state.scratch.release register } Nothing :=
        .of_eq rfl rfl
      exact (hfreed.trans (.push hstored rfl)).congr fun _ => or_self_iff
    · cases h
      exact .of_eq rfl rfl

/-! ## Operations -/

/-- A move collects nothing. -/
theorem Collecting.move (dest src : Register) : Collecting context (move dest src) Nothing :=
  .push ⟨rfl, rfl⟩ rfl

/-- A comparison collects nothing. -/
theorem Collecting.compareInto (condition : Condition) (lhs rhs : Register) :
    Collecting context (compareInto condition lhs rhs) Nothing :=
  (Collecting.push ⟨rfl, rfl⟩ rfl).skip fun _ => .skip .takeScratch fun _ =>
    (Collecting.push ⟨rfl, rfl⟩ rfl).skip fun _ => .pure _

/-- A division collects nothing. -/
theorem Collecting.divideInto (result lhs rhs : Register) :
    Collecting context (divideInto result lhs rhs) Nothing :=
  (Collecting.move _ _).skip fun _ => (Collecting.push ⟨rfl, rfl⟩ rfl).skip fun _ =>
    (Collecting.push ⟨rfl, rfl⟩ rfl).skip fun _ => .skip .takeScratch fun _ =>
      (Collecting.move _ _).skip fun _ => .pure _

/-- A combination of two registers collects nothing. -/
theorem Collecting.combineInto (op : AluOp) (lhs rhs : Register) :
    Collecting context (combineInto op lhs rhs) Nothing := by
  refine .skip .takeScratch fun out => ?_
  show Collecting _ (if _ then if _ then _ else _ else _) _
  split
  · split
    · exact (Collecting.push ⟨rfl, rfl⟩ rfl).skip fun _ =>
        (Collecting.push ⟨rfl, rfl⟩ rfl).skip fun _ => .pure _
    · exact (Collecting.push ⟨rfl, rfl⟩ rfl).skip fun _ => .pure _
  · exact .ifThen (.move _ _) ((Collecting.push ⟨rfl, rfl⟩ rfl).skip fun _ => .pure _)

/-- Binary operations collect nothing themselves. -/
theorem Collecting.binaryInto (op : BinaryOp) (lhs rhs : Register) :
    Collecting context (binaryInto op lhs rhs) Nothing := by
  cases op with
  | eq | ne | lt | le | gt | ge => exact .compareInto _ _ _
  | div | mod => exact .divideInto _ _ _
  | add | sub | mul => exact .combineInto _ _ _

/-- Unary operations collect nothing themselves. -/
theorem Collecting.unaryInto (op : UnaryOp) (operand : Register) :
    Collecting context (unaryInto op operand) Nothing := by
  refine .skip .takeScratch fun out => ?_
  cases op with
  | neg => exact .ifThen (.move _ _) ((Collecting.push ⟨rfl, rfl⟩ rfl).skip fun _ => .pure _)
  | not =>
      exact (Collecting.push ⟨rfl, rfl⟩ rfl).skip fun _ =>
        (Collecting.push ⟨rfl, rfl⟩ rfl).skip fun _ => .pure _

/-- The epilogue collects nothing. -/
theorem Collecting.epilogue : Collecting context epilogue Nothing := by
  refine .read (.skip (.forM_idle fun _ => .push ⟨rfl, rfl⟩ rfl) fun _ => ?_)
  exact (Collecting.move _ _).skip fun _ => (Collecting.push ⟨rfl, rfl⟩ rfl).skip fun _ =>
    .push ⟨rfl, rfl⟩ rfl

/-- The prologue collects nothing. -/
theorem Collecting.prologue : Collecting context prologue Nothing := by
  refine .read (.lift fun size _ => ?_)
  refine (Collecting.push ⟨rfl, rfl⟩ rfl).skip fun _ => (Collecting.move _ _).skip fun _ => ?_
  refine .ifThen (.push ⟨rfl, rfl⟩ rfl)
    (.skip (.forM_idle fun _ => .push ⟨rfl, rfl⟩ rfl) fun _ => ?_)
  exact .forM_idle fun _ => .push ⟨rfl, rfl⟩ rfl

/-! ## Calls -/

/-- An argument on the stack is asked for as it is read. -/
theorem Collecting.pushArg (call : Inst) (arg : Loc) :
    Collecting context (pushArg call arg) (Asked context ⟨call, arg⟩) :=
  (Collecting.readAccess _).last fun register => (Collecting.release register).skip fun _ =>
    .push ⟨rfl, rfl⟩ rfl

/-- An external name is collected. -/
theorem Collecting.addExtern (name : String) :
    Collecting context (inSession fun session => ((), session.addExtern name))
      fun demand => demand = .external name := by
  intro state result after hgives
  cases hgives
  refine ⟨Session.grows_addExtern _ _, fun h => h, fun text => ?_, fun other => ?_, [],
    (List.append_nil _).symm, List.forall_mem_nil _, fun _ h => by cases h⟩
  · exact (or_iff_left (fun h => by cases h)).symm
  · show other ∈ state.session.externs.insert name ↔ _
    rw [Std.ExtTreeSet.mem_insert, Demand.external.injEq, Std.LawfulEqCmp.compare_eq_iff_eq,
      or_comm, eq_comm (a := name)]

/-- The name of an external callee is noted, and `rax` is cleared for it. -/
theorem Collecting.external {β : Type} {isExternal : Bool} {name : String}
    {next : Unit → Emit β} (hnext : Collecting context (next ()) Nothing) :
    Collecting context (if isExternal then
        inSession (fun session => ((), session.addExtern name)) >>= fun _ => clear .rax >>= next
      else next ()) fun demand => isExternal = true ∧ demand = .external name := by
  cases isExternal with
  | true =>
      refine ((Collecting.addExtern name).last fun _ => ?_).congr fun _ => (and_iff_right rfl).symm
      exact (Collecting.push ⟨rfl, rfl⟩ rfl).skip fun _ => hnext
  | false => exact hnext.congr fun _ => ⟨False.elim, fun h => (by cases h.1)⟩

/-- What a call asks for, by the way it passes its arguments. -/
theorem demands_call {inst : Inst} {target : Symbol} {args : List Loc} {isExternal : Bool}
    {saved : List Register} {name : String} (hname : context.symbols.text target = .ok name)
    (demand : Demand) :
    context.body.Demands context.symbols inst (.call target args isExternal saved) demand ↔
      (∃ arg ∈ (onStack args).reverse, Asked context ⟨inst, arg⟩ demand) ∨
      (∃ arg ∈ inRegisters args, Asked context ⟨inst, arg⟩ demand) ∨
      isExternal = true ∧ demand = .external name := by
  cases demand with
  | text text =>
      have hargs (arg : Loc) :
          arg ∈ args ↔ arg ∈ (onStack args).reverse ∨ arg ∈ inRegisters args := by
        rw [List.mem_reverse, or_comm, ← List.mem_append, inRegisters, onStack,
          List.take_append_drop]
      simp only [Body.Demands, Record.fetched, hargs, or_and_right, exists_or, Asked, reduceCtorEq,
        and_false, or_false]
  | external other =>
      cases isExternal with
      | true => simp [Body.Demands, Record.external?, Asked, hname, eq_comm]
      | false => simp [Body.Demands, Record.external?, Asked]
  | target | place => simp [Body.Demands, Asked]

/-- A call asks for its arguments, and for its target if that is external. -/
theorem Collecting.emitCall (inst : Inst) (target : Symbol) (args : List Loc) (isExternal : Bool)
    (saved : List Register) :
    Collecting context (emitCall inst target args isExternal saved)
      (context.body.Demands context.symbols inst (.call target args isExternal saved)) := by
  refine .read (.lift fun name hname => ?_)
  refine .skip (.forM_idle fun _ => .push ⟨rfl, rfl⟩ rfl) fun _ => ?_
  refine .ifThen (.push ⟨rfl, rfl⟩ rfl) ?_
  refine Collecting.congr (Collecting.bind (.forM fun arg _ => .pushArg inst arg) fun _ =>
    .bind (.forM fun arg _ => .pushArg inst arg) fun _ =>
      .skip (.forM_idle fun _ => .push ⟨rfl, rfl⟩ rfl) fun _ => .external ?_)
    fun demand => (demands_call hname demand).symm
  refine (Collecting.push ⟨rfl, rfl⟩ rfl).skip fun _ => .lift fun bytes _ => ?_
  exact .ifThen (.push ⟨rfl, rfl⟩ rfl) (.forM_idle fun _ => .push ⟨rfl, rfl⟩ rfl)

/-! ## Values and statements -/

/-- A record that looks nothing up asks for what its operands ask for. -/
theorem requires_operands {inst : Inst} {record : Record}
    (hrecord : context.body.record inst = .ok record) (hfetched : record.fetched = [])
    (hexternal : record.external? = none) (demand : Demand) :
    (∃ part ∈ record.operands, context.body.Requires context.symbols part demand) ↔
      context.body.Requires context.symbols inst demand := by
  rw [Body.requires_iff hrecord]
  refine (or_iff_right fun hdemands => ?_).symm
  cases demand with
  | text text =>
      obtain ⟨loc, hloc, -⟩ := hdemands
      rw [hfetched] at hloc
      cases hloc
  | external name =>
      obtain ⟨symbol, hsymbol, -⟩ := hdemands
      cases hexternal.symm.trans hsymbol
  | target | place => exact hdemands

/-- A record without operands asks for what it looks up. -/
theorem requires_leaf {inst : Inst} {record : Record}
    (hrecord : context.body.record inst = .ok record) (hleaf : record.operands = [])
    (demand : Demand) : context.body.Demands context.symbols inst record demand ↔
      context.body.Requires context.symbols inst demand := by
  rw [Body.requires_iff hrecord, hleaf]
  refine (or_iff_left ?_).symm
  rintro ⟨part, hpart, -⟩
  cases hpart

/-- **VALUES** ask for what is evaluated with them. -/
theorem Collecting.value (depth : Nat) (inst : Inst) :
    Collecting context (value depth inst) (context.body.Requires context.symbols inst) := by
  -- by induction on the depth; a value without depth is not emitted at all
  induction depth generalizing inst with
  | zero => exact fun _ _ _ hgives => (by cases hgives)
  | succ depth ih =>
      refine .read (.lift fun record hrecord => ?_)
      cases record with
      | load src =>
          refine (Collecting.readAccess ⟨inst, src⟩).congr fun demand => ?_
          rw [← requires_leaf hrecord rfl]
          cases demand <;>
            simp [Asked, Body.Demands, Record.fetched, Record.external?]
      | param index =>
          refine Collecting.congr ?_ (requires_operands hrecord rfl rfl)
          refine .read (.lift fun offset _ => ?_)
          cases offset with
          | none => exact .malformed _
          | some offset =>
              refine Collecting.congr (.skip .takeScratch fun out => .skip (.push ⟨rfl, rfl⟩ rfl)
                fun _ => .pure out) fun demand => ⟨False.elim, ?_⟩
              rintro ⟨part, hpart, -⟩
              cases hpart
      | binary op lhs rhs =>
          -- operands are evaluated from left to right, and the operation asks for nothing
          -- more
          have hoperands := ((ih lhs).bind fun left => (ih rhs).last fun right =>
            (Collecting.release left).skip fun _ => (Collecting.release right).skip fun _ =>
              .binaryInto op left right)
          refine hoperands.congr fun demand => ?_
          rw [← requires_operands hrecord rfl rfl]
          simp only [Record.operands, List.mem_pair, exists_eq_or_imp, exists_eq_left]
      | unary op operand =>
          have hoperand := (ih operand).last fun register =>
            (Collecting.release register).skip fun _ => .unaryInto op register
          refine hoperand.congr fun demand => ?_
          rw [← requires_operands hrecord rfl rfl]
          simp only [Record.operands, List.mem_singleton, exists_eq_left]
      | call target args isExternal saved =>
          refine Collecting.congr ?_ (requires_leaf hrecord rfl)
          exact (Collecting.emitCall inst target args isExternal saved).last fun _ =>
            .skip .takeScratch fun _ => (Collecting.move _ _).skip fun _ => .pure _
      | save | use | label | jump | branch | ret | exit => exact .malformed _

/-- A value asks for what its record requires. -/
theorem Collecting.valueOf (inst : Inst) :
    Collecting context (valueOf inst) (context.body.Requires context.symbols inst) :=
  .read (.value _ inst)

/-- What a statement asks for, together with what is evaluated with it. -/
def Wants (body : Body) (symbols : SymbolPool) (stmt : Inst) (demand : Demand) : Prop :=
  body.Requires symbols stmt demand ∨ body.Marks stmt demand

/-- A statement that neither is about places nor ends the process. -/
theorem wants_requires {stmt : Inst} {record : Record}
    (hrecord : context.body.record stmt = .ok record) (htarget : record.target? = none)
    (hplace : ∀ label, record ≠ .label label) (hexit : ∀ code, record ≠ .exit code)
    (demand : Demand) :
    context.body.Requires context.symbols stmt demand ↔
      Wants context.body context.symbols stmt demand := by
  refine (or_iff_left fun hmarks => ?_).symm
  cases demand with
  | text => exact hmarks
  | external name =>
      obtain ⟨⟨code, hcode⟩, -⟩ := hmarks
      cases hrecord.symm.trans hcode
      exact hexit code rfl
  | target name =>
      obtain ⟨found, label, hfound, hlabel, -⟩ := hmarks
      cases hrecord.symm.trans hfound
      cases htarget.symm.trans hlabel
  | place name =>
      obtain ⟨label, hlabel, -⟩ := hmarks
      cases hrecord.symm.trans hlabel
      exact hplace label rfl

/-- A statement without operands that looks nothing up. -/
theorem not_requires {stmt : Inst} {record : Record}
    (hrecord : context.body.record stmt = .ok record) (hleaf : record.operands = [])
    (hfetched : record.fetched = []) (hexternal : record.external? = none) (demand : Demand) :
    ¬context.body.Requires context.symbols stmt demand := by
  rw [← requires_operands hrecord hfetched hexternal, hleaf]
  rintro ⟨part, hpart, -⟩
  cases hpart

/-- A label marks its own place. -/
theorem marks_label {stmt : Inst} {label : Label}
    (hrecord : context.body.record stmt = .ok (.label label)) (demand : Demand) :
    context.body.Marks stmt demand ↔ demand = .place (labelName label) := by
  cases demand <;> simp [Body.Marks, hrecord, Record.target?, eq_comm]

/-- An exit marks the routine that ends the process. -/
theorem marks_exit {stmt : Inst} {code : Int32}
    (hrecord : context.body.record stmt = .ok (.exit code)) (demand : Demand) :
    context.body.Marks stmt demand ↔ demand = .external exitRoutine := by
  cases demand <;> simp [Body.Marks, hrecord, Record.target?]

/-- A jump marks its target. -/
theorem marks_target {stmt : Inst} {record : Record} {label : Label}
    (hrecord : context.body.record stmt = .ok record) (htarget : record.target? = some label)
    (demand : Demand) :
    context.body.Marks stmt demand ↔ demand = .target (labelName label) := by
  cases demand with
  | text => simp [Body.Marks]
  | target name => simp [Body.Marks, hrecord, htarget]
  | external name =>
      refine ⟨?_, fun h => by cases h⟩
      rintro ⟨⟨code, hcode⟩, -⟩
      cases hrecord.symm.trans hcode
      cases htarget
  | place name =>
      refine ⟨?_, fun h => by cases h⟩
      rintro ⟨other, hother, -⟩
      cases hrecord.symm.trans hother
      cases htarget

/-- **STATEMENTS** ask for what is evaluated with them, for places, and for the end of
    the process. -/
theorem Collecting.statement (stmt : Inst) :
    Collecting context (statement stmt) (Wants context.body context.symbols stmt) := by
  -- either the parts of a statement ask for something, or its own mark does
  refine .read (.lift fun record hrecord => ?_)
  cases record with
  | save value dest =>
      refine Collecting.congr ?_ (wants_requires hrecord rfl (fun _ h => by cases h)
        fun _ h => by cases h)
      refine ((Collecting.valueOf value).last fun register => .store stmt dest register).congr
        fun demand => ?_
      rw [← requires_operands hrecord rfl rfl]
      simp only [Record.operands, List.mem_singleton, exists_eq_left]
  | call target args isExternal saved =>
      refine Collecting.congr ?_ (wants_requires hrecord rfl (fun _ h => by cases h)
        fun _ h => by cases h)
      exact (Collecting.emitCall stmt target args isExternal saved).congr
        (requires_leaf hrecord rfl)
  | use loc =>
      refine Collecting.congr ?_ (wants_requires hrecord rfl (fun _ h => by cases h)
        fun _ h => by cases h)
      refine (Collecting.pure ()).congr fun demand => ⟨False.elim, fun hrequires => ?_⟩
      exact not_requires hrecord rfl rfl rfl demand hrequires
  | label place =>
      refine (Collecting.label (labelName place)).congr fun demand => ?_
      rw [Wants, or_iff_right (not_requires hrecord rfl rfl rfl demand), marks_label hrecord]
  | jump target =>
      refine (Collecting.jump (.jmp (labelName target)) ⟨rfl, rfl⟩ rfl).congr fun demand => ?_
      rw [Wants, or_iff_right (not_requires hrecord rfl rfl rfl demand),
        marks_target hrecord rfl]
  | branch cond target =>
      refine ((Collecting.valueOf cond).bind fun register => (Collecting.release register).skip
        fun _ => (Collecting.push ⟨rfl, rfl⟩ rfl).skip fun _ =>
          .jump (.jcc .e (labelName target)) ⟨rfl, rfl⟩ rfl).congr fun demand => ?_
      rw [Wants, marks_target hrecord rfl, ← requires_operands hrecord rfl rfl]
      simp only [Record.operands, List.mem_singleton, exists_eq_left]
  | ret value =>
      refine Collecting.congr ?_ (wants_requires hrecord rfl (fun _ h => by cases h)
        fun _ h => by cases h)
      cases value with
      | none =>
          refine ((Collecting.push ⟨rfl, rfl⟩ rfl).skip fun _ => .epilogue).congr fun demand =>
            ⟨False.elim, fun hrequires => ?_⟩
          exact not_requires hrecord rfl rfl rfl demand hrequires
      | some value =>
          refine ((Collecting.valueOf value).last fun register => (Collecting.release register).skip
            fun _ => (Collecting.move _ _).skip fun _ => .epilogue).congr fun demand => ?_
          rw [← requires_operands hrecord rfl rfl]
          simp only [Record.operands, List.mem_singleton, exists_eq_left]
  | exit code =>
      refine ((Collecting.addExtern exitRoutine).last fun _ => (Collecting.push ⟨rfl, rfl⟩ rfl).skip
        fun _ => (Collecting.push ⟨rfl, rfl⟩ rfl).skip fun _ => .push ⟨rfl, rfl⟩ rfl).congr
        fun demand => ?_
      rw [Wants, or_iff_right (not_requires hrecord rfl rfl rfl demand), marks_exit hrecord]
  | load | param | binary | unary => exact .malformed _

/-- Statements in a row ask for what each one wants. -/
theorem Collecting.statements (stmts : List Inst) :
    Collecting context (statements stmts) fun demand =>
      ∃ stmt ∈ stmts, Wants context.body context.symbols stmt demand := by
  refine .forM fun stmt _ => (Collecting.statement stmt).last fun _ => ?_
  intro state result after hgives
  cases hgives
  exact .of_eq rfl rfl

/-! ## Methods -/

/-- A method asks for what its statements want, and for nothing else. -/
theorem Collecting.wholeMethod :
    Collecting context wholeMethod fun demand =>
      ∃ stmt ∈ context.body.stmts, Wants context.body context.symbols stmt demand := by
  refine .read (Collecting.prologue.skip fun _ => (Collecting.statements _).last fun _ =>
    .lift fun falls _ => ?_)
  split
  · exact (Collecting.push ⟨rfl, rfl⟩ rfl).skip fun _ => .epilogue
  · exact .pure ()

/-- **METHODS COLLECT** what their statements ask for. -/
theorem emitMethod_collects {body : Body} {symbols : SymbolPool} {session last : Session}
    {function : Function} (h : emitMethod body symbols session = .ok (.ok function, last)) :
    Collects { session } { session := last, code := function.code.toArray } fun demand =>
      ∃ stmt ∈ body.stmts, Wants body symbols stmt demand := by
  obtain ⟨name, -, h⟩ := Checked.bind_eq_ok h
  obtain ⟨frame, -, h⟩ := Checked.bind_eq_ok h
  obtain ⟨⟨result, state⟩, hwhole, h⟩ := Checked.bind_eq_ok h
  cases result with
  | error error => cases h
  | ok _ =>
      cases h
      have hcollects := @Collecting.wholeMethod ⟨body, symbols, frame, name⟩ _ _ _ hwhole
      exact ⟨hcollects.grows, hcollects.nodup, hcollects.texts, hcollects.externs, hcollects.code⟩

end

end Emission

end DecafBackend
