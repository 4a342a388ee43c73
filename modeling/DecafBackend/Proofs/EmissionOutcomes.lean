import DecafBackend.Proofs.EmittedRuns
import DecafBackend.Proofs.FrameSlots
import DecafBackend.Proofs.SuppliedBodies

/-! # Outcomes of emission

    Emission gives the code of a supplied body unless some field that the body
    accesses is not declared.  Two scratch registers are enough for every value,
    whatever registers are bound, since a value gives its inputs back before it takes
    its output; and the frame has a slot wherever one is looked for.

    * `Misses`, `Ends` — how a step of emission can end
    * `Ends.readAccess`, `Ends.emitCall`, `Ends.value`, `Ends.statement` — the steps
    * `CommandCode.declared` — the code of a statement names declared fields only
    * `emitMethod_outcome` — the three outcomes for a method -/

namespace DecafBackend

/-- A name has no label if it is not declared. -/
theorem Session.global?_eq_none {session : Session} {name : String} :
    session.global? name = none ↔ name ∉ session.globals := by
  rw [Session.global?, Option.map_eq_none_iff, List.idxOf?_eq_none_iff]

namespace Emission

open Checked (Within)

/-- The error that an access gives because its field is not declared. -/
def Misses (context : Context) (globals : List String) (access : Access) (error : CompileError) :
    Prop :=
  ∃ symbol name, context.body.locations[access.loc.index]? = some (.global symbol) ∧
    context.symbols.text symbol = .ok name ∧ name ∉ globals ∧
    error = .unresolvedLocation context.name s!"global '{name}'"

/-- How a step of emission ends: it gives a result and declares nothing, or one of
    the accesses in question misses its field, or a large frame overflows. -/
def Ends {α : Type} (large : Prop) (touched : Access → Prop) (step : Emit α) (context : Context)
    (state : State) : Prop :=
  (∃ result after, Gives step context state result after ∧
    after.session.globals = state.session.globals) ∨
  (∃ error after, step context state = .ok (.error error, after) ∧
    ∃ access, touched access ∧ Misses context state.session.globals access error) ∨
  step context state = .error .overflow ∧ large

/-- What emission looks up for an access is there. -/
structure Locatable (context : Context) (access : Access) : Prop where
  location : ∃ location, context.body.locations[access.loc.index]? = some location
  named : ∀ {location : Location} {symbol : Symbol},
    context.body.locations[access.loc.index]? = some location → location.symbol? = some symbol →
      ∃ text, context.symbols.text symbol = .ok text
  slot : context.body.bindings.get? access = none → context.body.tracks access.loc = true →
    ∃ offset, context.frame.slot? access.loc = some offset

/-- Only in large bodies calls have arguments whose size does not fit 64 bits. -/
def CallsFit (large : Prop) (body : Body) : Prop :=
  ∀ {inst : Inst} {target : Symbol} {args : List Loc} {isExternal : Bool} {saved : List Register},
    body.record inst = .ok (.call target args isExternal saved) →
      9223372036854775807 < cleanup args saved → large

/-- A call that does not fit makes its body oversized. -/
theorem callsFit {body : Body} : CallsFit body.Oversized body := by
  intro inst target args isExternal saved hrecord hmany
  refine Or.inr (Or.inr ⟨inst, target, args, isExternal, saved, hrecord, ?_⟩)
  have hpad := Bool.toNat_le (isPadded args saved)
  have hsix : Register.arguments.length = 6 := rfl
  rw [cleanup, onStack, List.length_drop] at hmany
  omega

/-! ## Sequences of steps -/

section

variable {α β : Type} {large : Prop} {touched : Access → Prop} {context : Context} {state : State}

theorem Ends.of_gives {step : Emit α} {result : α} {after : State}
    (h : Gives step context state result after)
    (hglobals : after.session.globals = state.session.globals) :
    Ends large touched step context state := Or.inl ⟨result, after, h, hglobals⟩

/-- A step that does nothing ends well. -/
theorem Ends.pure (a : α) : Ends large touched (Pure.pure a : Emit α) context state :=
  .of_gives rfl rfl

/-- A sequence ends well if its steps do. -/
theorem Ends.bind {step : Emit α} {next : α → Emit β} (h : Ends large touched step context state)
    (hnext : ∀ a after, Gives step context state a after →
      Ends large touched (next a) context after) :
    Ends large touched (step >>= next) context state := by
  -- the three ways in which the first step ends are those of the sequence
  have hbind : ∀ result, step context state = result → (step >>= next) context state =
      match result with
      | .ok (.ok a, after) => next a context after
      | .ok (.error error, after) => .ok (.error error, after)
      | .error fault => .error fault := by
    rintro result rfl
    simp only [Bind.bind, ReaderT.bind, ExceptT.bind, ExceptT.mk, StateT.bind, Except.bind]
    cases step context state with
    | error fault => rfl
    | ok pair =>
        obtain ⟨a | a, after⟩ := pair
        · rfl
        · rfl
  rcases h with ⟨a, after, hgives, hglobals⟩ | ⟨error, after, hfails, hmisses⟩ | ⟨hfault, hlarge⟩
  · have hafter := hnext a after hgives
    rw [Ends, hglobals] at hafter
    have hsame : (step >>= next) context state = next a context after := hbind _ hgives
    simp only [Ends, Gives, hsame]
    exact hafter
  · exact Or.inr (Or.inl ⟨error, after, hbind _ hfails, hmisses⟩)
  · exact Or.inr (Or.inr ⟨hbind _ hfault, hlarge⟩)

/-- To read the context ends well. -/
theorem Ends.read {next : Context → Emit β} (h : Ends large touched (next context) context state) :
    Ends large touched (MonadReaderOf.read >>= next) context state := h

/-- To read the state ends well. -/
theorem Ends.get {next : State → Emit β} (h : Ends large touched (next state) context state) :
    Ends large touched (MonadStateOf.get >>= next) context state := h

/-- A step that computes ends well if it computes something. -/
theorem Ends.lift {x : Checked α} {a : α} {next : α → Emit β} (hx : x = .ok a)
    (h : Ends large touched (next a) context state) :
    Ends large touched (liftM x >>= next) context state := by
  rw [hx]
  exact h

/-- A step that overflows for oversized bodies only ends well. -/
theorem Ends.within {x : Checked α} {post : α → Prop} {next : α → Emit β}
    (hx : Within large x post)
    (h : ∀ a, post a → Ends large touched (next a) context state) :
    Ends large touched (liftM x >>= next) context state := by
  rcases hx with ⟨a, rfl, ha⟩ | ⟨rfl, hlarge⟩
  · exact h a ha
  · exact Or.inr (Or.inr ⟨rfl, hlarge⟩)

/-- To add an instruction ends well. -/
theorem Ends.push (instruction : Instruction) :
    Ends large touched (push instruction) context state := .of_gives rfl rfl

/-- A change of the session that keeps the fields ends well. -/
theorem Ends.inSession {step : Session → α × Session}
    (h : (step state.session).2.globals = state.session.globals) :
    Ends large touched (inSession step) context state :=
  Or.inl ⟨_, { state with session := (step state.session).2 }, rfl, h⟩

theorem Ends.release (register : Register) :
    Ends large touched (release register) context state := .of_gives rfl rfl

/-- To take a scratch register ends well while one is free. -/
theorem Ends.takeScratch {taken : Register × ScratchPool} (h : state.scratch.take = some taken) :
    Ends large touched takeScratch context state := by
  refine Ends.get ?_
  obtain ⟨register, scratch⟩ := taken
  rw [h]
  exact .of_gives rfl rfl

/-- A step under a condition, and what comes after it. -/
theorem Ends.ifThen {c : Prop} [Decidable c] {step : Emit Unit} {next : Unit → Emit β}
    (hstep : Ends large touched step context state)
    (hnext : ∀ after, Gives (if c then step else Pure.pure ()) context state () after →
      Ends large touched (next ()) context after) :
    Ends large touched (if c then step >>= next else next ()) context state := by
  split
  · next hc =>
      rw [if_pos hc] at hnext
      exact hstep.bind fun _ after hafter => hnext after hafter
  · next hc =>
      rw [if_neg hc] at hnext
      exact hnext state rfl

/-- Steps for the elements of a list, each of which keeps an invariant. -/
theorem Ends.forM {step : α → Emit Unit} {list : List α} (invariant : State → Prop)
    (hstep : ∀ a ∈ list, ∀ state, invariant state → Ends large touched (step a) context state ∧
      ∀ after, Gives (step a) context state () after → invariant after)
    (hstate : invariant state) : Ends large touched (list.forM step) context state := by
  induction list generalizing state with
  | nil => exact .pure ()
  | cons a list ih =>
      obtain ⟨hfirst, hkeeps⟩ := hstep a List.mem_cons_self state hstate
      rw [forM_cons]
      refine hfirst.bind fun _ after hafter => ih (fun b hb => ?_) (hkeeps after hafter)
      exact hstep b (List.mem_cons_of_mem a hb)

/-- To add instructions ends well. -/
theorem Ends.forM_push (f : α → Instruction) (list : List α) :
    Ends large touched (list.forM fun a => Emission.push (f a)) context state :=
  .forM (fun _ => True) (fun _ _ _ _ => ⟨.push _, fun _ _ => trivial⟩) trivial

end

/-! ## Accesses -/

section

variable {large : Prop} {touched : Access → Prop} {context : Context} {state : State}
  (hlocatable : ∀ access, touched access → Locatable context access)
include hlocatable

/-- The operand of an access is found unless its field is missing. -/
theorem Ends.storage {access : Access} (haccess : touched access)
    (hstored : ∀ symbol, context.body.locations[access.loc.index]? ≠ some (.literal symbol)) :
    Ends large touched (storage access) context state := by
  have h := hlocatable access haccess
  obtain ⟨location, hlocation⟩ := h.location
  refine .read ?_
  cases hbound : context.body.bindings.get? access with
  | some register => exact .pure _
  | none =>
      refine .lift (Body.location_eq hlocation) ?_
      cases location with
      | localVar name | temp =>
          obtain ⟨offset, hoffset⟩ := h.slot hbound (tracks_of_location hlocation rfl)
          dsimp only
          rw [hoffset]
          exact .pure _
      | global symbol =>
          obtain ⟨name, hname⟩ := h.named hlocation rfl
          refine .lift hname (.get ?_)
          cases hlabel : state.session.global? name with
          | some label => exact .pure _
          | none =>
              refine Or.inr (Or.inl ⟨_, state, rfl, access, haccess, symbol, name, hlocation, hname,
                Session.global?_eq_none.mp hlabel, rfl⟩)
      | constant value => exact .pure _
      | literal symbol => exact absurd hlocation (hstored symbol)

/-- An access is read unless its field is missing. -/
theorem Ends.readAccess {access : Access} (haccess : touched access)
    {taken : Register × ScratchPool} (hfree : state.scratch.take = some taken) :
    Ends large touched (readAccess access) context state := by
  have h := hlocatable access haccess
  obtain ⟨location, hlocation⟩ := h.location
  refine .read ?_
  cases hbound : context.body.bindings.get? access with
  | some register => exact .pure _
  | none =>
      refine .lift (Body.location_eq hlocation) ?_
      have hplain : (∀ symbol, context.body.locations[access.loc.index]? ≠ some (.literal symbol)) →
          Ends large touched (do
            let src ← Emission.storage access
            let out ← Emission.takeScratch
            Emission.push (.mov (.reg out) src)
            return out : Emit Register) context state := by
        intro hstored
        refine (Ends.storage hlocatable haccess hstored).bind fun src after hsrc => ?_
        obtain ⟨rfl, -⟩ := hsrc.storage (Session.Grows.refl _)
        refine (Ends.takeScratch hfree).bind fun out _ _ => ?_
        exact (Ends.push _).bind fun _ _ _ => .pure _
      cases location with
      | literal symbol =>
          obtain ⟨text, htext⟩ := h.named hlocation rfl
          refine .lift htext ?_
          have hgrows := (Session.grows_internText state.session text).1
          refine (Ends.inSession hgrows.globals).bind fun label after hlabel => ?_
          obtain ⟨-, hscratch, -⟩ := hlabel.internText
          refine (Ends.takeScratch (hscratch ▸ hfree)).bind fun out _ _ => ?_
          exact (Ends.push _).bind fun _ _ _ => .pure _
      | localVar name => exact hplain fun _ h => by cases hlocation.symm.trans h
      | temp => exact hplain fun _ h => by cases hlocation.symm.trans h
      | global symbol => exact hplain fun _ h => by cases hlocation.symm.trans h
      | constant value => exact hplain fun _ h => by cases hlocation.symm.trans h

/-- A result is stored unless the field is missing. -/
theorem Ends.store {stmt : Inst} {dest : Loc} {location : Location}
    (haccess : touched ⟨stmt, dest⟩)
    (hlocation : context.body.locations[dest.index]? = some location)
    (hwritable : location.isWritable = true) (register : Register) :
    Ends large touched (store stmt dest register) context state := by
  refine .read (.lift (Body.location_eq hlocation) ?_)
  rw [hwritable]
  refine (Ends.storage hlocatable haccess fun symbol hliteral => ?_).bind fun operand _ _ => ?_
  · cases hlocation.symm.trans hliteral
    cases hwritable
  · refine (Ends.release register).bind fun _ _ _ => ?_
    split
    · exact .push _
    · exact .pure ()

/-! ## Calls -/

/-- An argument is pushed unless its field is missing. -/
theorem Ends.pushArg {inst : Inst} {arg : Loc} (haccess : touched ⟨inst, arg⟩)
    (hfree : state.scratch = {}) : Ends large touched (pushArg inst arg) context state := by
  refine (Ends.readAccess hlocatable haccess (by rw [hfree]; exact rfl)).bind fun register _ _ => ?_
  exact (Ends.release register).bind fun _ _ _ => .push _

/-- Arguments are pushed unless a field is missing. -/
theorem Ends.pushArgs {inst : Inst} {args : List Loc} (haccess : ∀ arg ∈ args, touched ⟨inst, arg⟩)
    (hfree : state.scratch = {}) :
    Ends large touched (args.forM (Emission.pushArg inst)) context state := by
  refine .forM (fun state => state.scratch = {}) (fun arg harg state hfree => ?_) hfree
  refine ⟨.pushArg hlocatable (haccess arg harg) hfree, fun after hafter => ?_⟩
  obtain ⟨_, _, _, -, -, hscratch⟩ := hafter.pushArg (Session.Grows.refl _) hfree
  exact hscratch

omit hlocatable in
/-- The name of an external callee is noted. -/
theorem Ends.external {β : Type} {isExternal : Bool} {name : String} {next : Unit → Emit β}
    (hnext : ∀ after, Ends large touched (next ()) context after) :
    Ends large touched (if isExternal then
        Emission.inSession (fun session => ((), session.addExtern name)) >>= fun _ =>
          clear .rax >>= next
      else next ()) context state := by
  cases isExternal with
  | true =>
      refine Ends.bind (.inSession (by rfl)) fun _ _ _ => ?_
      exact (Ends.push _).bind fun _ after _ => hnext after
  | false => exact hnext state

omit hlocatable in
/-- A number is refused if it is too large only. -/
theorem fit64_within {n : Nat} (h : 9223372036854775807 < n → large) :
    Within large (fit64 n) (· = n) := by
  rw [fit64]
  split
  · exact .pure rfl
  · next hout => exact Or.inr ⟨rfl, h (by omega)⟩

/-- **CALLS END WELL** unless a field is missing or the call does not fit. -/
theorem Ends.emitCall {inst : Inst} {target : Symbol} {args : List Loc} {isExternal : Bool}
    {saved : List Register} {name : String} (hname : context.symbols.text target = .ok name)
    (haccess : ∀ arg ∈ args, touched ⟨inst, arg⟩)
    (hlarge : 9223372036854775807 < cleanup args saved → large) (hfree : state.scratch = {}) :
    Ends large touched (emitCall inst target args isExternal saved) context state := by
  refine .read (.lift hname ?_)
  refine (Ends.forM_push _ _).bind fun _ s₁ hsaved => ?_
  obtain ⟨-, scratch₁⟩ := hsaved.forM_push
  refine Ends.ifThen (.push _) fun s₂ hpadded => ?_
  obtain ⟨-, scratch₂⟩ := hpadded.pushIf
  have free₂ : s₂.scratch = {} := by rw [scratch₂, scratch₁, hfree]
  have hstacked : ∀ arg ∈ (onStack args).reverse, touched ⟨inst, arg⟩ := fun arg harg =>
    haccess arg (List.mem_of_mem_drop (List.mem_reverse.mp harg))
  refine (Ends.pushArgs hlocatable hstacked free₂).bind fun _ s₃ hs₃ => ?_
  obtain ⟨_, -, -, free₃⟩ := hs₃.pushArgs (Session.Grows.refl _) free₂
  have hregistered : ∀ arg ∈ inRegisters args, touched ⟨inst, arg⟩ := fun arg harg =>
    haccess arg (List.mem_of_mem_take harg)
  refine (Ends.pushArgs hlocatable hregistered free₃).bind fun _ s₄ _ => ?_
  refine (Ends.forM_push _ _).bind fun _ s₅ _ => ?_
  refine Ends.external fun s₆ => ?_
  refine (Ends.push _).bind fun _ s₇ _ => .within (fit64_within hlarge) fun bytes _ => ?_
  exact Ends.ifThen (.push _) fun s₈ _ => .forM_push _ _

end

/-! ## Values -/

section

variable {large : Prop} {touched : Access → Prop} {context : Context} {state : State}

/-- Sums and products end well. -/
theorem Ends.combineInto {op : AluOp} {lhs rhs : Register}
    (hfree : state.scratch.firstFree = true) :
    Ends large touched (combineInto op lhs rhs) context state := by
  refine (Ends.takeScratch (take_first hfree)).bind fun out _ _ => ?_
  show Ends _ _ (if _ then if _ then _ else _ else _) _ _
  split
  · split
    · exact (Ends.push _).bind fun _ _ _ => (Ends.push _).bind fun _ _ _ => .pure _
    · exact (Ends.push _).bind fun _ _ _ => .pure _
  · exact Ends.ifThen (.push _) fun _ _ => (Ends.push _).bind fun _ _ _ => .pure _

/-- Comparisons end well. -/
theorem Ends.compareInto {condition : Condition} {lhs rhs : Register}
    (hfree : state.scratch.firstFree = true) :
    Ends large touched (compareInto condition lhs rhs) context state := by
  refine (Ends.push _).bind fun _ s₁ hs₁ => ?_
  refine (Ends.takeScratch (take_first (hs₁.push.2 ▸ hfree))).bind fun out _ _ => ?_
  exact (Ends.push _).bind fun _ _ _ => .pure _

/-- Divisions end well. -/
theorem Ends.divideInto {result lhs rhs : Register} (hfree : state.scratch.firstFree = true) :
    Ends large touched (divideInto result lhs rhs) context state := by
  refine (Ends.push _).bind fun _ s₁ hs₁ => (Ends.push _).bind fun _ s₂ hs₂ =>
    (Ends.push _).bind fun _ s₃ hs₃ => ?_
  have hscratch : s₃.scratch = state.scratch := by rw [hs₃.push.2, hs₂.push.2, hs₁.push.2]
  refine (Ends.takeScratch (take_first (hscratch ▸ hfree))).bind fun out _ _ => ?_
  exact (Ends.push _).bind fun _ _ _ => .pure _

/-- Binary operations end well. -/
theorem Ends.binaryInto {op : BinaryOp} {lhs rhs : Register}
    (hfree : state.scratch.firstFree = true) :
    Ends large touched (binaryInto op lhs rhs) context state := by
  cases op with
  | add | sub | mul => exact .combineInto hfree
  | div | mod => exact .divideInto hfree
  | eq | ne | lt | le | gt | ge => exact .compareInto hfree

/-- Unary operations end well. -/
theorem Ends.unaryInto {op : UnaryOp} {operand : Register}
    (hfree : state.scratch.firstFree = true) :
    Ends large touched (unaryInto op operand) context state := by
  refine (Ends.takeScratch (take_first hfree)).bind fun out _ _ => ?_
  cases op with
  | neg => exact Ends.ifThen (.push _) fun _ _ => (Ends.push _).bind fun _ _ _ => .pure _
  | not => exact (Ends.push _).bind fun _ _ _ => (Ends.push _).bind fun _ _ _ => .pure _

/-- A step that looks a record up. -/
theorem Ends.record {α : Type} {inst : Inst} {record : Record} {next : Record → Emit α}
    (hrecord : context.body.records[inst.index]? = some record)
    (h : Ends large touched (next record) context state) :
    Ends large touched (MonadReaderOf.read >>= fun found : Context =>
      liftM (found.body.record inst) >>= next) context state :=
  .read (.lift (Body.record_eq hrecord) h)

/-- One scratch register is free behind a read. -/
theorem Reads.take {session : Session} {access : Access} {register : Register} {pool : ScratchPool}
    {code : List Instruction} (h : Reads context session access {} register pool code) :
    ∃ taken, pool.take = some taken := by
  cases h with
  | bound hbound => exact ⟨_, rfl⟩
  | fetched htake hfetches =>
      cases htake
      exact ⟨_, rfl⟩

variable (hlocatable : ∀ access, touched access → Locatable context access)
include hlocatable

/-- A load ends well unless its field is missing. -/
theorem Ends.valueLoad {depth : Nat} {access : Access} (haccess : touched access)
    (hrecord : context.body.records[access.inst.index]? = some (.load access.loc))
    {taken : Register × ScratchPool} (hfree : state.scratch.take = some taken) :
    Ends large touched (Emission.value (depth + 1) access.inst) context state :=
  .record hrecord (.readAccess hlocatable haccess hfree)

/-- **TWO SCRATCH REGISTERS ARE ENOUGH** for every value. -/
theorem Ends.value {depth : Nat} {value : Value} (hvalue : context.body.IsValue value)
    (hreads : ∀ access ∈ value.reads, touched access)
    (hcallee : ∀ {inst target args isExternal saved},
      value = .call inst target args isExternal saved →
      ∃ name, context.symbols.text target = .ok name)
    (hparam : ∀ {inst index}, value = .param inst index →
      Within large (context.frame.param? index) fun offset => ∃ found, offset = some found)
    (hcalls : CallsFit large context.body) (hfree : state.scratch = {}) :
    Ends large touched (Emission.value (depth + 2) value.inst) context state := by
  have htake : state.scratch.take = some (.r10, { firstFree := false }) := by rw [hfree]; rfl
  cases value with
  | load access => exact .valueLoad hlocatable (hreads access List.mem_cons_self) hvalue htake
  | param inst index =>
      refine .record hvalue (.read (.within (hparam rfl) ?_))
      rintro _ ⟨offset, rfl⟩
      refine (Ends.takeScratch htake).bind fun out _ _ => ?_
      exact (Ends.push _).bind fun _ _ _ => .pure _
  | unary inst op operand =>
      refine .record hvalue.1 ?_
      have haccess := hreads operand List.mem_cons_self
      -- the operand has given its register back, so the first one is free again
      refine (Ends.valueLoad hlocatable haccess hvalue.2 htake).bind fun source s₁ hoperand => ?_
      refine (Ends.release source).bind fun _ s₂ hrelease => .unaryInto ?_
      obtain ⟨_, -, hreads⟩ := hoperand.valueLoad hvalue.2 (Session.Grows.refl _)
      rw [hfree] at hreads
      rw [hrelease.release.2, hreads.release]
  | binary inst op lhs rhs =>
      refine .record hvalue.1 ?_
      have haccess := hreads lhs List.mem_cons_self
      have haccess' := hreads rhs (List.mem_cons_of_mem _ List.mem_cons_self)
      refine (Ends.valueLoad hlocatable haccess hvalue.2.1 htake).bind fun left s₁ hleft => ?_
      obtain ⟨_, -, hreads⟩ := hleft.valueLoad hvalue.2.1 (Session.Grows.refl _)
      rw [hfree] at hreads
      obtain ⟨taken, htaken⟩ := hreads.take
      refine (Ends.valueLoad hlocatable haccess' hvalue.2.2 htaken).bind fun right s₂ hright => ?_
      refine (Ends.release left).bind fun _ s₃ hrelease => ?_
      refine (Ends.release right).bind fun _ s₄ hrelease' => .binaryInto ?_
      obtain ⟨_, hadded, hreads'⟩ := hright.valueLoad hvalue.2.2 (Session.Grows.refl _)
      obtain ⟨_, -, hreads⟩ := hleft.valueLoad hvalue.2.1 hadded.session
      rw [hfree] at hreads
      rw [hrelease'.release.2, hrelease.release.2]
      exact hreads.release_both hreads'
  | call inst target args isExternal saved =>
      obtain ⟨name, hname⟩ := hcallee rfl
      refine .record hvalue ?_
      have hargs : ∀ arg ∈ args, touched ⟨inst, arg⟩ := fun arg harg =>
        hreads _ (List.mem_map_of_mem harg)
      refine (Ends.emitCall hlocatable hname hargs (hcalls (Body.record_eq hvalue))
        hfree).bind fun _ s₁ hcall => ?_
      obtain ⟨_, -, -, hscratch⟩ := hcall.emitCall (Session.Grows.refl _) hfree
      refine (Ends.takeScratch (take_first (by rw [hscratch]))).bind fun out _ _ => ?_
      exact (Ends.push _).bind fun _ _ _ => .pure _

/-! ## Statements -/

/-- A value of a statement ends well unless a field is missing. -/
theorem Ends.valueOf {value : Value} (hvalue : context.body.IsValue value)
    (hreads : ∀ access ∈ value.reads, touched access)
    (hcallee : ∀ {inst target args isExternal saved},
      value = .call inst target args isExternal saved →
      ∃ name, context.symbols.text target = .ok name)
    (hparam : ∀ {inst index}, value = .param inst index →
      Within large (context.frame.param? index) fun offset => ∃ found, offset = some found)
    (hcalls : CallsFit large context.body) (hfree : state.scratch = {}) :
    Ends large touched (Emission.valueOf value.inst) context state := by
  obtain ⟨depth, hdepth⟩ := records_size hvalue
  refine .read ?_
  rw [hdepth]
  exact .value hlocatable hvalue hreads hcallee hparam hcalls hfree

/-- A load that is a value of its own ends well. -/
theorem Ends.valueOfLoad {access : Access} (haccess : touched access)
    (hrecord : context.body.records[access.inst.index]? = some (.load access.loc))
    (hfree : state.scratch = {}) :
    Ends large touched (Emission.valueOf access.inst) context state :=
  .read (.valueLoad hlocatable haccess hrecord (by rw [hfree]; exact rfl))

omit hlocatable in
/-- The end of a method ends well. -/
theorem Ends.epilogue : Ends large touched epilogue context state := by
  refine .read ((Ends.forM_push _ _).bind fun _ _ _ => ?_)
  exact (Ends.push _).bind fun _ _ _ => (Ends.push _).bind fun _ _ _ => .push _

/-- **STATEMENTS END WELL** unless a field is missing. -/
theorem Ends.statement {stmt : Inst} {command : Command}
    (hcommand : context.body.command? stmt = some command)
    (hvalid : command.Valid context.body stmt)
    (haccess : ∀ access ∈ command.accesses stmt, touched access)
    (hcallee : ∀ {symbol}, command.callee? = some symbol →
      ∃ name, context.symbols.text symbol = .ok name)
    (hparam : ∀ {inst index dest}, command = .save (.param inst index) dest →
      Within large (context.frame.param? index) fun offset => ∃ found, offset = some found)
    (hcalls : CallsFit large context.body) (hfree : state.scratch = {}) :
    Ends large touched (Emission.statement stmt) context state := by
  replace hcommand := Body.command?_eq_some.mp hcommand
  have hreads : ∀ access ∈ command.reads stmt, touched access := fun access hmem =>
    haccess access (List.mem_append_right _ hmem)
  cases command with
  | save value dest =>
      refine .record hcommand.1 ?_
      obtain ⟨location, hlocation, hwritable⟩ := hvalid.dest dest rfl
      refine (Ends.valueOf hlocatable hcommand.2 hreads (fun h => hcallee (by rw [h]; rfl))
        (fun h => hparam (by rw [h])) hcalls hfree).bind fun register _ _ => ?_
      exact .store hlocatable (haccess _ List.mem_cons_self) hlocation hwritable register
  | call target args isExternal saved =>
      obtain ⟨name, hname⟩ := hcallee rfl
      refine .record hcommand (.emitCall hlocatable hname (fun arg harg => ?_)
        (hcalls (Body.record_eq hcommand)) hfree)
      exact hreads _ (List.mem_map_of_mem harg)
  | use loc => exact .record hcommand (.pure ())
  | label place => exact .record hcommand (.push _)
  | jump target => exact .record hcommand (.push _)
  | branch cond target =>
      refine .record hcommand.1 ?_
      refine (Ends.valueOfLoad hlocatable (hreads cond List.mem_cons_self) hcommand.2 hfree).bind
        fun register _ _ => ?_
      exact (Ends.release register).bind fun _ _ _ => (Ends.push _).bind fun _ _ _ => .push _
  | ret value =>
      cases value with
      | none => exact .record hcommand ((Ends.push _).bind fun _ _ _ => .epilogue)
      | some value =>
          refine .record hcommand.1 ?_
          refine (Ends.valueOfLoad hlocatable (hreads value List.mem_cons_self) hcommand.2
            hfree).bind fun register _ _ => ?_
          exact (Ends.release register).bind fun _ _ _ => (Ends.push _).bind fun _ _ _ => .epilogue
  | exit code =>
      refine .record hcommand (Ends.bind (.inSession (by rfl)) fun _ _ _ => ?_)
      exact (Ends.push _).bind fun _ _ _ => (Ends.push _).bind fun _ _ _ => .push _

end

/-! ## Methods -/

/-- A statement of a body makes an access. -/
def Touched (body : Body) (access : Access) : Prop :=
  ∃ stmt ∈ body.stmts, ∃ command, body.command? stmt = some command ∧
    access ∈ command.accesses stmt

section

variable {symbols : SymbolPool} {name : String} {body : Body} {frame : Frame}
  {noted : List Access}

/-- What the accesses of a supplied body look up is there. -/
theorem locatable_of_supplied (h : body.Supplied symbols name)
    (hfilled : Frame.Filled body noted frame)
    (hnoted : ∀ stmt ∈ body.stmts, ∀ command, body.command? stmt = some command →
      command.accesses stmt ⊆ noted) {access : Access} (haccess : Touched body access) :
    Locatable ⟨body, symbols, frame, name⟩ access := by
  obtain ⟨stmt, hstmt, command, hcommand, hmem⟩ := haccess
  have hvalid := h.regular.wellFormed.valid hstmt hcommand
  refine ⟨⟨_, Array.getElem?_eq_getElem (hvalid.accesses hmem)⟩, ?_, ?_⟩
  · exact fun hlocation hsymbol => (h.named hlocation hsymbol).text
  · exact hfilled.slot access (hnoted stmt hstmt command hcommand hmem)

/-- Emission of a supplied body with its frame. -/
theorem Ends.wholeMethod (h : body.Supplied symbols name) (hframe : Frame.compute body = .ok frame)
    (hfilled : Frame.Filled body noted frame)
    (hnoted : ∀ stmt ∈ body.stmts, ∀ command, body.command? stmt = some command →
      command.accesses stmt ⊆ noted) (session : Session) :
    Ends body.Oversized (Touched body) wholeMethod ⟨body, symbols, frame, name⟩ { session } := by
  have wf := h.regular.wellFormed
  have hlaid := Frame.compute_laid hframe
  refine .read ?_
  have hprologue : Ends body.Oversized (Touched body) Emission.prologue
      ⟨body, symbols, frame, name⟩ { session } := by
    have hcount := length_toList_le body.bindings.calleeSaved
    refine .read (.within (Frame.allocationSize_within hfilled hcount) fun size _ => ?_)
    refine (Ends.push _).bind fun _ _ _ => (Ends.push _).bind fun _ _ _ => ?_
    refine Ends.ifThen (.push _) fun _ _ => ?_
    exact (Ends.forM_push _ _).bind fun _ _ _ => .forM_push _ _
  refine hprologue.bind fun _ start hstart => ?_
  obtain ⟨size, -, -, hscratch⟩ := hstart.prologue
  have hstmts : Ends body.Oversized (Touched body) (Emission.statements body.stmts)
      ⟨body, symbols, frame, name⟩ start := by
    -- the scratch registers are free between statements
    refine .forM (fun state => state.scratch = {}) (fun stmt hstmt state hfree => ⟨?_, ?_⟩) hscratch
    · obtain ⟨command, hcommand, hvalid⟩ := wf.commands stmt hstmt
      refine (Ends.statement (fun access => locatable_of_supplied h hfilled hnoted) hcommand hvalid
        (fun access hmem => ⟨stmt, hstmt, command, hcommand, hmem⟩)
        (fun hcallee => (h.called hstmt hcommand hcallee).text) (fun heq => ?_) callsFit hfree).bind
        fun _ _ _ => .of_gives rfl rfl
      exact hlaid.param?_within (h.param hstmt (heq ▸ hcommand))
    · intro after hafter
      obtain ⟨_, _, -, hreset⟩ := hafter.bind
      cases hreset
      rfl
  refine hstmts.bind fun _ _ _ => ?_
  exact .lift (fallsOff_eq wf) (.pure ())

end

/-! ## Fields in the code -/

section

variable {context : Context} {session : Session}

/-- If an access is of a field, the field is declared. -/
def Declared (context : Context) (session : Session) (access : Access) : Prop :=
  ∀ symbol, context.body.locations[access.loc.index]? = some (.global symbol) →
    ∃ name, context.symbols.text symbol = .ok name ∧ name ∈ session.globals

variable (hbound : ∀ {access : Access} {register : Register},
  context.body.bindings.get? access = some register → context.body.tracks access.loc = true)
include hbound

/-- What is in a register is no field. -/
theorem declared_of_bound {access : Access} {register : Register}
    (h : context.body.bindings.get? access = some register) : Declared context session access := by
  intro symbol hlocation
  have htracks := hbound h
  rw [Body.tracks, hlocation] at htracks
  cases htracks

/-- A field with an operand is declared. -/
theorem Places.declared {access : Access} {operand : Operand}
    (h : Places context session access operand) : Declared context session access := by
  cases h with
  | register hregister => exact declared_of_bound hbound hregister
  | slot _ htracks _ =>
      intro symbol hlocation
      rw [Body.tracks, hlocation] at htracks
      cases htracks
  | field _ hlocation hname hlabel =>
      intro symbol hlocation'
      cases hlocation.symm.trans hlocation'
      refine ⟨_, hname, Classical.byContradiction fun hmissing => ?_⟩
      cases hlabel.symm.trans (Session.global?_eq_none.mpr hmissing)
  | constant _ hlocation =>
      intro symbol hlocation'
      cases hlocation.symm.trans hlocation'

/-- A field that is read is declared. -/
theorem Reads.declared {access : Access} {pool pool' : ScratchPool} {register : Register}
    {code : List Instruction} (h : Reads context session access pool register pool' code) :
    Declared context session access := by
  cases h with
  | bound hregister => exact declared_of_bound hbound hregister
  | fetched _ hfetches =>
      cases hfetches with
      | stored _ hplaces => exact hplaces.declared hbound
      | literal _ hlocation _ _ =>
          intro symbol hlocation'
          cases hlocation.symm.trans hlocation'

/-- Fields that are pushed are declared. -/
theorem Pushes.declared {inst : Inst} {args : List Loc} {code : List Instruction}
    (h : Pushes context session inst args code) :
    ∀ arg ∈ args, Declared context session ⟨inst, arg⟩ := by
  induction h with
  | nil => exact List.forall_mem_nil _
  | cons hreads _ ih => exact List.forall_mem_cons.mpr ⟨hreads.declared hbound, ih⟩

/-- Fields that are passed to a call are declared. -/
theorem CallCode.declared {inst : Inst} {target : Symbol} {args : List Loc} {isExternal : Bool}
    {saved : List Register} {code : List Instruction}
    (h : CallCode context session inst target args isExternal saved code) :
    ∀ access ∈ args.map (Access.mk inst), Declared context session access := by
  cases h with
  | intro _ hstacked hregistered _ =>
      intro access haccess
      obtain ⟨arg, harg, rfl⟩ := List.mem_map.mp haccess
      rw [← List.take_append_drop Register.arguments.length args] at harg
      rcases List.mem_append.mp harg with htaken | hdropped
      · exact hregistered.declared hbound arg htaken
      · exact hstacked.declared hbound arg (List.mem_reverse.mpr hdropped)

/-- Fields that a value reads are declared. -/
theorem ValueCode.declared {value : Value} {register : Register} {code : List Instruction}
    (h : ValueCode context session value register code) :
    ∀ access ∈ value.reads, Declared context session access := by
  cases h with
  | load hreads => exact List.forall_mem_singleton.mpr (hreads.declared hbound)
  | param _ => exact List.forall_mem_nil _
  | unary hreads => exact List.forall_mem_singleton.mpr (hreads.declared hbound)
  | binary hleft hright =>
      exact List.forall_mem_cons.mpr ⟨hleft.declared hbound,
        List.forall_mem_singleton.mpr (hright.declared hbound)⟩
  | call hcall => exact hcall.declared hbound

/-- **CODE NAMES DECLARED FIELDS ONLY**: a statement that has code accesses no other
    field. -/
theorem CommandCode.declared {stmt : Inst} {command : Command} {code : List Instruction}
    (h : CommandCode context session stmt command code) (hunused : ∀ loc, command ≠ .use loc) :
    ∀ access ∈ command.accesses stmt, Declared context session access := by
  cases h with
  | save hvalue hplaces =>
      exact List.forall_mem_cons.mpr ⟨hplaces.declared hbound, hvalue.declared hbound⟩
  | call hcall => exact hcall.declared hbound
  | use loc => exact absurd rfl (hunused loc)
  | label | jump | ret | exit => exact List.forall_mem_nil _
  | branch hreads => exact List.forall_mem_singleton.mpr (hreads.declared hbound)
  | retValue hreads => exact List.forall_mem_singleton.mpr (hreads.declared hbound)

/-- Fields of statements that have code are declared. -/
theorem StmtsCode.declared {stmts : List Inst} {code : List Instruction}
    (h : StmtsCode context session stmts code)
    (hunused : ∀ stmt ∈ stmts, ∀ loc, context.body.command? stmt ≠ some (.use loc)) {stmt : Inst}
    {command : Command} (hstmt : stmt ∈ stmts)
    (hcommand : context.body.command? stmt = some command) :
    ∀ access ∈ command.accesses stmt, Declared context session access := by
  induction h with
  | nil => cases hstmt
  | cons hfirst hcode _ ih =>
      rcases List.mem_cons.mp hstmt with rfl | hrest
      · cases hcommand.symm.trans hfirst
        exact hcode.declared hbound fun loc heq =>
          hunused stmt List.mem_cons_self loc (heq ▸ hcommand)
      · exact ih (fun other hother => hunused other (List.mem_cons_of_mem _ hother)) hrest

end

/-! ## Outcomes -/

/-- A method accesses a field by a name. -/
def TouchesField (body : Body) (symbols : SymbolPool) (field : String) : Prop :=
  ∃ access symbol, Touched body access ∧
    body.locations[access.loc.index]? = some (.global symbol) ∧ symbols.text symbol = .ok field

/-- A method is emitted as its parts are. -/
theorem emitMethod_eq {symbols : SymbolPool} {name : String} {body : Body} {frame : Frame}
    {session : Session} {result : Except CompileError Unit} {state : State}
    (hname : symbols.text body.name = .ok name) (hframe : Frame.compute body = .ok frame)
    (hwhole : wholeMethod ⟨body, symbols, frame, name⟩ { session } = .ok (result, state)) :
    emitMethod body symbols session =
      .ok (result.map fun _ => { name, code := state.code.toList }, state.session) := by
  rw [emitMethod, Checked.bind_ok hname, Checked.bind_ok hframe, Checked.bind_ok hwhole]
  rfl

/-- **THE OUTCOMES FOR A METHOD**: its code, if all fields that it accesses are
    declared, or else an error that names one of them. -/
theorem emitMethod_outcome {symbols : SymbolPool} {name : String} {body : Body}
    (h : body.Supplied symbols name) (session : Session) :
    (∃ function last, emitMethod body symbols session = .ok (.ok function, last) ∧
      function.name = name ∧ last.globals = session.globals ∧
      ∀ field, TouchesField body symbols field → field ∈ session.globals) ∨
    (∃ error last, emitMethod body symbols session = .ok (.error error, last) ∧
      ∃ field, TouchesField body symbols field ∧ field ∉ session.globals ∧
        error = .unresolvedLocation name s!"global '{field}'") ∨
    emitMethod body symbols session = .error .overflow ∧ body.Oversized := by
  have wf := h.regular.wellFormed
  have hname := SymbolPool.text_of_find? h.name
  rcases Frame.compute_within wf with ⟨frame, hframe, noted, hfilled, hnoted⟩ | ⟨hframe, hlarge⟩
  · rcases Ends.wholeMethod h hframe hfilled hnoted session with
      ⟨_, after, hgives, hglobals⟩ | ⟨error, after, hfails, access, htouched, hmisses⟩ |
        ⟨hfault, hlarge⟩
    · have hemit := emitMethod_eq hname hframe hgives
      refine Or.inl ⟨_, _, hemit, rfl, hglobals, ?_⟩
      -- the code of a statement has operands for all its accesses, so their fields are
      -- declared
      rintro field ⟨access, symbol, ⟨stmt, hstmt, command, hcommand, hmem⟩, hlocation, htext⟩
      obtain ⟨_, _, _, code, hframe', -, -, hcode⟩ := emitMethod_code wf hemit
      have hunused : ∀ stmt ∈ body.stmts, ∀ loc, body.command? stmt ≠ some (.use loc) :=
        fun stmt hstmt loc => h.regular.unused hstmt
      obtain ⟨field', htext', hfield⟩ :=
        hcode.declared h.bound hunused hstmt hcommand access hmem symbol hlocation
      cases htext.symm.trans htext'
      exact hglobals ▸ hfield
    · obtain ⟨symbol, field, hlocation, htext, hmissing, rfl⟩ := hmisses
      exact Or.inr (Or.inl ⟨_, _, emitMethod_eq hname hframe hfails, field,
        ⟨access, symbol, htouched, hlocation, htext⟩, hmissing, rfl⟩)
    · refine Or.inr (Or.inr ⟨?_, hlarge⟩)
      rw [emitMethod, Checked.bind_ok hname, Checked.bind_ok hframe, Checked.bind_error hfault]
  · refine Or.inr (Or.inr ⟨?_, hlarge⟩)
    rw [emitMethod, Checked.bind_ok hname, Checked.bind_error hframe]

end Emission

end DecafBackend
