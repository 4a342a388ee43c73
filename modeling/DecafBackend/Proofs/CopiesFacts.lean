import DecafBackend.Optimize.Copies
import DecafBackend.Proofs.Maps
import DecafBackend.Proofs.Solver

/-! # What is known of copies

    A statement takes away the copies that it touches, and a save of a plain
    location adds one.  Which copies there are behind a statement is said
    exactly, so that what holds of all copies can be carried along a block, and
    so that two walks over a block can be compared.

    * `Has` — a copy is recorded
    * `Bound` — only variables of the method hold copies, of locations that exist
    * `Spares`, `Records`, `step_spec` — what a statement leaves and what it adds
    * `has_meet` — both paths have a copy
    * `bound_solution` — every state of a solution is bound -/

namespace DecafBackend.Copies

variable {body : Body} {copies other : Copies} {loc dest src : Loc}

/-- A location is recorded as a copy of another one. -/
def Has (copies : Copies) (dest src : Loc) : Prop := copies.sources[dest]? = some src

/-- A location is a copy of one other at most. -/
theorem Has.unique {a b : Loc} (ha : copies.Has dest a) (hb : copies.Has dest b) : a = b := by
  rw [Has] at ha hb
  rw [ha] at hb
  exact Option.some.inj hb

theorem not_has_empty : ¬ Has {} dest src := by
  intro h
  rw [Has, Std.ExtTreeMap.getElem?_empty] at h
  cases h

/-- States with the same copies are the same. -/
theorem eq_of_has (h : ∀ dest src, copies.Has dest src ↔ other.Has dest src) : copies = other := by
  obtain ⟨mine⟩ := copies
  obtain ⟨theirs⟩ := other
  refine congrArg Copies.mk (Std.ExtTreeMap.ext_getElem? fun dest => ?_)
  exact Option.ext fun src => h dest src

/-! ## Copies taken away -/

/-- To kill a location takes away the copies it takes part in. -/
theorem has_kill :
    (copies.kill loc).Has dest src ↔ copies.Has dest src ∧ dest ≠ loc ∧ src ≠ loc := by
  rw [Has, kill, Std.ExtTreeMap.getElem?_filter', Option.filter_eq_some_iff, decide_eq_true_iff]
  rfl

/-- The meet has what both have. -/
theorem has_meet : (copies.meet other).Has dest src ↔ copies.Has dest src ∧ other.Has dest src := by
  rw [Has, meet, Std.ExtTreeMap.getElem?_filter', Option.filter_eq_some_iff, decide_eq_true_iff]
  rfl

/-- The places in a body that copies may name: the variables of the method
    hold copies, and what is copied exists. -/
structure Bound (body : Body) (copies : Copies) : Prop where
  dest : ∀ {dest src}, copies.Has dest src → body.isTracked dest = .ok true
  src : ∀ {dest src}, copies.Has dest src → src.index < body.locations.size

theorem Bound.empty : Bound body {} :=
  ⟨fun h => absurd h not_has_empty, fun h => absurd h not_has_empty⟩

/-- Fewer copies are in range too. -/
theorem Bound.of_has (h : Bound body copies)
    (hsub : ∀ dest src, other.Has dest src → copies.Has dest src) : Bound body other :=
  ⟨fun hhas => h.dest (hsub _ _ hhas), fun hhas => h.src (hsub _ _ hhas)⟩

/-- The meet is in range. -/
theorem Bound.meet (h : Bound body copies) : Bound body (copies.meet other) :=
  h.of_has fun _ _ hhas => (has_meet.mp hhas).1

/-- A call takes away the copies of fields, and no others. -/
theorem killGlobals_spec (h : Bound body copies) : ∃ left, copies.killGlobals body = .ok left ∧
    ∀ dest src, left.Has dest src ↔ copies.Has dest src ∧ body.isGlobal src = .ok false := by
  have htest : ∀ pair ∈ copies.sources.toList, ∃ field, body.isGlobal pair.2 = .ok field := by
    rintro ⟨dest, src⟩ hpair
    exact Body.isGlobal_ok (h.src (Std.ExtTreeMap.mem_toList_iff_getElem?_eq_some.mp hpair))
  obtain ⟨field, hfield, hfilter⟩ := Checked.filterM_ok htest
  let fields := copies.sources.toList.filter field
  refine ⟨⟨(fields.map Prod.fst).foldl (·.erase ·) copies.sources⟩, ?_, ?_⟩
  · rw [killGlobals, hfilter, List.foldl_map]
    rfl
  intro dest src
  constructor
  · intro hhas
    have hold : copies.Has dest src := Maps.getElem?_of_foldl_erase hhas
    have hmem : (dest, src) ∈ copies.sources.toList :=
      Std.ExtTreeMap.mem_toList_iff_getElem?_eq_some.mpr hold
    refine ⟨hold, ?_⟩
    rw [hfield _ hmem]
    cases htrue : field (dest, src) with
    | false => rfl
    | true =>
        -- a copy of a field was taken away
        refine absurd rfl (Maps.ne_of_foldl_erase hhas dest ?_)
        exact List.mem_map.mpr ⟨(dest, src), List.mem_filter.mpr ⟨hmem, htrue⟩, rfl⟩
  -- a copy of a variable is in none of the pairs that are taken away
  · rintro ⟨hold, hlocal⟩
    refine (Maps.getElem?_foldl_erase ?_).trans hold
    rintro key hkey rfl
    obtain ⟨⟨dest, src'⟩, hpair, rfl⟩ := List.mem_map.mp hkey
    obtain ⟨hmem, htrue⟩ := List.mem_filter.mp hpair
    have hsame : copies.Has dest src' := Std.ExtTreeMap.mem_toList_iff_getElem?_eq_some.mp hmem
    cases hold.unique hsame
    have := hfield _ hmem
    rw [hlocal, htrue] at this
    cases this

/-! ## One statement -/

/-- A statement leaves a copy as it is. -/
structure Spares (body : Body) (stmt : Inst) (command : Command) (dest src : Loc) : Prop where
  called : (command.callInst? stmt).isSome = true → body.isGlobal src = .ok false
  dest : command.dest? ≠ some dest
  src : command.dest? ≠ some src

/-- A statement adds a copy: it saves a location, which is seen through the
    copies known before. -/
def Records (body : Body) (copies : Copies) (command : Command) (dest src : Loc) : Prop :=
  ∃ loaded, command = .save (.load loaded) dest ∧
    (copies.source? loaded.loc).getD loaded.loc = src ∧ isRecordable body src dest = .ok true

theorem isTracked_eq {loc : Loc} {location : Location}
    (h : body.locations[loc.index]? = some location) :
    body.isTracked loc = .ok location.isAllocatable := by
  rw [Body.isTracked, Body.location_eq h]
  rfl

/-- To ask whether a copy can be recorded fails for no location of the body. -/
theorem isRecordable_ok (hsrc : src.index < body.locations.size)
    (hdest : dest.index < body.locations.size) :
    ∃ answer, isRecordable body src dest = .ok answer := by
  have hlocation := Body.location_eq (Array.getElem?_eq_getElem hsrc)
  rw [isRecordable, hlocation]
  simp only [bind, Except.bind]
  split
  · exact ⟨_, rfl⟩
  · split
    · exact ⟨_, rfl⟩
    · exact ⟨_, isTracked_eq (Array.getElem?_eq_getElem hdest)⟩

/-- What is recorded is about a variable of the method and another location. -/
theorem of_isRecordable (h : isRecordable body src dest = .ok true) :
    body.isTracked dest = .ok true ∧ src ≠ dest := by
  rw [isRecordable] at h
  obtain ⟨location, -, h⟩ := Checked.bind_eq_ok h
  split at h
  · cases h
  · split at h
    · cases h
    · exact ⟨h, ‹_›⟩

/-- The location that a value is a copy of, seen through copies. -/
def sourceOf (copies : Copies) : Value → Option Loc
  | .load loaded => some ((copies.source? loaded.loc).getD loaded.loc)
  | _ => none

/-- The source of a save is that of its value. -/
theorem savedSource_eq {value : Value} (h : body.IsValue value) :
    savedSource body copies value.inst = .ok (copies.sourceOf value) := by
  cases value with
  | load loaded => rw [savedSource, Value.inst, Body.record_eq h]; rfl
  | param inst index => rw [savedSource, Value.inst, Body.record_eq h]; rfl
  | unary inst op operand => rw [savedSource, Value.inst, Body.record_eq h.1]; rfl
  | binary inst op lhs rhs => rw [savedSource, Value.inst, Body.record_eq h.1]; rfl
  | call inst target args isExternal saved => rw [savedSource, Value.inst, Body.record_eq h]; rfl

/-- What is read through copies exists. -/
theorem Bound.source_lt (h : Bound body copies) (hloc : loc.index < body.locations.size) :
    ((copies.source? loc).getD loc).index < body.locations.size := by
  cases hsource : copies.source? loc with
  | none => exact hloc
  | some src => exact h.src hsource

/-- The calls of a statement take away copies before it writes anything. -/
theorem called_spec (h : Bound body copies) (isCall : Bool) :
    ∃ called, (if isCall = true then copies.killGlobals body else pure copies) = .ok called ∧
      ∀ dest src, called.Has dest src ↔ copies.Has dest src ∧
        (isCall = true → body.isGlobal src = .ok false) := by
  cases isCall with
  | true =>
      obtain ⟨left, hleft, hhas⟩ := killGlobals_spec h
      refine ⟨left, hleft, fun dest src => (hhas dest src).trans ?_⟩
      exact and_congr_right fun _ => ⟨fun hlocal _ => hlocal, fun hlocal => hlocal rfl⟩
  | false =>
      refine ⟨copies, rfl, fun dest src => ?_⟩
      exact ⟨fun hhas => ⟨hhas, fun hfalse => by cases hfalse⟩, And.left⟩

/-- What a write leaves of the copies, and what it adds. -/
def write (body : Body) (copies : Copies) : Record → Checked Copies
  | .save value dest => do
    match ← savedSource body copies value with
    | none => return copies.kill dest
    | some src =>
      if ← isRecordable body src dest then return ⟨(copies.kill dest).sources.insert dest src⟩
      else return copies.kill dest
  | _ => return copies

/-- A statement that saves nothing changes no copies. -/
theorem write_idle {record : Record} (h : record.dest? = none) :
    write body copies record = .ok copies := by
  cases record with
  | save value dest => cases h
  | _ => rfl

/-- A statement makes its calls first, and then it writes. -/
theorem step_eq {stmt : Inst} {record : Record} {isCall : Bool} {called : Copies}
    (hcall : body.hasCall stmt = .ok isCall)
    (hcalled : (if isCall = true then copies.killGlobals body else pure copies) = .ok called)
    (hrecord : body.records[stmt.index]? = some record) :
    step body copies stmt = write body called record := by
  rw [step, hcall, Body.record_eq hrecord]
  cases isCall with
  | true =>
      replace hcalled : copies.killGlobals body = .ok called := hcalled
      simp only [bind, Except.bind, if_true, hcalled]
      cases record <;> rfl
  | false =>
      cases hcalled
      cases record <;> rfl

/-- **COPIES BEHIND A STATEMENT**: those that it adds, and those that it
    leaves as they are. -/
theorem step_spec (h : Bound body copies) {stmt : Inst} {command : Command}
    (hcommand : body.command? stmt = some command) (hvalid : command.Valid body stmt) :
    ∃ next, step body copies stmt = .ok next ∧
      ∀ dest src, next.Has dest src ↔ Records body copies command dest src ∨
        (copies.Has dest src ∧ Spares body stmt command dest src) := by
  obtain ⟨called, hcalled, hhas⟩ := called_spec h (command.callInst? stmt).isSome
  have hrecords := Body.command?_eq_some.mp hcommand
  cases command with
  | save value saved =>
      rw [step_eq (Body.hasCall_eq hcommand) hcalled hrecords.1, write, savedSource_eq hrecords.2]
      simp only [bind, Except.bind]
      -- a save takes away the copies of its destination, beside those that its call takes
      -- away
      have hspares : ∀ dest src, (called.kill saved).Has dest src ↔
          copies.Has dest src ∧ Spares body stmt (.save value saved) dest src := by
        intro dest src
        rw [has_kill, hhas]
        constructor
        · rintro ⟨⟨hold, hlocal⟩, hdest, hsrc⟩
          exact ⟨hold, hlocal, fun heq => hdest (Option.some.inj heq).symm,
            fun heq => hsrc (Option.some.inj heq).symm⟩
        · rintro ⟨hold, hlocal, hdest, hsrc⟩
          exact ⟨⟨hold, hlocal⟩, fun heq => hdest (congrArg some heq.symm),
            fun heq => hsrc (congrArg some heq.symm)⟩
      cases value with
      | load loaded =>
          cases hcalled
          obtain ⟨location, hlocation, -⟩ := hvalid.dest saved rfl
          have hread := hvalid.reads loaded List.mem_cons_self
          obtain ⟨answer, hanswer⟩ := isRecordable_ok (h.source_lt hread)
            (Array.getElem?_eq_some_iff.mp hlocation).1
          simp only [sourceOf, hanswer]
          cases answer with
          | false =>
              refine ⟨_, rfl, fun dest src => (hspares dest src).trans ?_⟩
              refine (or_iff_right ?_).symm
              rintro ⟨loaded', heq, rfl, htrue⟩
              cases heq
              rw [hanswer] at htrue
              cases htrue
          | true =>
              refine ⟨_, rfl, fun dest src => ?_⟩
              rw [Has, Maps.getElem?_insert]
              by_cases heq : saved = dest
              · subst heq
                rw [if_pos rfl]
                constructor
                · intro hsrc
                  cases hsrc
                  exact Or.inl ⟨loaded, rfl, rfl, hanswer⟩
                · rintro (⟨loaded', heq, rfl, -⟩ | ⟨-, hspare⟩)
                  · cases heq
                    rfl
                  · exact absurd rfl hspare.dest
              · rw [if_neg heq]
                refine (hspares dest src).trans (or_iff_right ?_).symm
                rintro ⟨loaded', hsave, -⟩
                cases hsave
                exact heq rfl
      | param | unary | binary | call =>
          refine ⟨_, rfl, fun dest src => (hspares dest src).trans (or_iff_right ?_).symm⟩
          rintro ⟨loaded, heq, -⟩
          cases heq
  | _ =>
      obtain ⟨record, hrecord, hdest, -⟩ := Body.record_command hcommand
      rw [step_eq (Body.hasCall_eq hcommand) hcalled hrecord, write_idle hdest]
      refine ⟨called, rfl, fun dest src => ?_⟩
      rw [hhas]
      constructor
      · rintro ⟨hold, hlocal⟩
        exact Or.inr ⟨hold, hlocal, nofun, nofun⟩
      · rintro (⟨loaded, heq, -⟩ | ⟨hold, hspare⟩)
        · cases heq
        · exact ⟨hold, hspare.called⟩

/-- A statement leaves copies bound. -/
theorem Bound.step (h : Bound body copies) {stmt : Inst} {command : Command}
    (hcommand : body.command? stmt = some command) (hvalid : command.Valid body stmt)
    {next : Copies} (hstep : step body copies stmt = .ok next) : Bound body next := by
  obtain ⟨next', hstep', hhas⟩ := step_spec h hcommand hvalid
  rw [hstep] at hstep'
  cases hstep'
  constructor
  · intro dest src hnext
    rcases (hhas dest src).mp hnext with ⟨loaded, -, -, hrecordable⟩ | ⟨hold, -⟩
    · exact (of_isRecordable hrecordable).1
    · exact h.dest hold
  · intro dest src hnext
    rcases (hhas dest src).mp hnext with ⟨loaded, rfl, rfl, -⟩ | ⟨hold, -⟩
    · exact h.source_lt (hvalid.reads loaded List.mem_cons_self)
    · exact h.src hold

/-! ## Blocks and solutions -/

section

variable (wf : WellFormed body)
include wf

/-- The copies behind some statements of a block. -/
theorem steps_ok (h : Bound body copies) {stmts : List Inst}
    (hstmts : ∀ stmt ∈ stmts, stmt ∈ body.stmts) :
    ∃ next, stmts.foldlM (Copies.step body) copies = .ok next ∧ Bound body next := by
  refine Checked.foldlM_ok (Bound body) h fun copies stmt hstmt hbound => ?_
  obtain ⟨command, hcommand, hvalid⟩ := wf.commands stmt (hstmts stmt hstmt)
  obtain ⟨next, hstep, -⟩ := step_spec hbound hcommand hvalid
  exact ⟨next, hstep, hbound.step hcommand hvalid hstep⟩

/-- Copies stay in range over statements. -/
theorem bound_steps (h : Bound body copies) {stmts : List Inst}
    (hstmts : ∀ stmt ∈ stmts, stmt ∈ body.stmts)
    {next : Copies} (hsteps : stmts.foldlM (Copies.step body) copies = .ok next) :
    Bound body next := by
  obtain ⟨next', hsteps', hbound⟩ := steps_ok wf h hstmts
  rw [hsteps] at hsteps'
  cases hsteps'
  exact hbound

/-- The states of a solution are bound. -/
theorem bound_solution {steps : Nat} {graph : FlowGraph} {solution : Solution Copies}
    (hsolve : solve steps graph (analysis body) = .ok solution) :
    Worklist.Satisfies (Bound body) solution := by
  refine solve_invariant hsolve Bound.empty Bound.empty (fun _ _ h _ => h.meet) ?_
  intro block input output hinput htransfer
  exact bound_steps wf hinput (fun stmt => Body.mem_stmts_of_stmtsOf) htransfer

end

end DecafBackend.Copies
