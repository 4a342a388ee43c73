import DecafBackend.Proofs.CommonTerms
import DecafBackend.Proofs.DeadSaves

/-! # Dead saves are eliminated

    Every round but the last one deletes a save, and no round makes one, so the
    rounds come to an end.  Deleting a save fails only if the key of the call
    that it leaves is the one that stands for an absent key.  A run of a
    well-formed body that starts with contents in every location never reads an
    undefined one, so it is kept unless it comes to a trap.

    * `WellFormed.unstuck_of_full` — runs from stores that leave nothing undefined
    * `delete_ok`, `foldlM_delete_ok` — deletions succeed
    * `saves_sweep_lt` — every round deletes a save
    * `eliminateDeadSaves_ok` — the rounds come to an end
    * `eliminateDeadSaves_same_behaviour` — runs without a trap are kept -/

namespace DecafBackend

/-! ## Nothing undefined is read -/

/-- The run does not come to a trap. -/
def Behaviour.Untrapped (behaviour : Behaviour) : Prop :=
  ∀ ending, behaviour.Ends ending → ending.outcome ≠ .aborted .trap

/-- The run does not read anything undefined. -/
def Behaviour.Unstuck (behaviour : Behaviour) : Prop :=
  ∀ ending, behaviour.Ends ending → ending.outcome ≠ .stuck

/-- Every variable and temporary has contents. -/
def Store.Full (store : Store) : Prop := ∀ loc, ∃ word, store.locals loc = some word

/-- What every step keeps, and every ending has behind it, holds of the ending
    of a run. -/
theorem System.ends_invariant {σ : Type} {sys : System σ} (invariant : σ → Prop)
    (good : Ending → Prop)
    (hgoing : ∀ {s s'}, invariant s → sys.step s = .going s' → invariant s')
    (hended : ∀ {s ending}, invariant s → sys.step s = .ended ending → good ending)
    {s : σ} (h : invariant s) {ending : Ending} (hends : (sys.behaviour s).Ends ending) :
    good ending := by
  obtain ⟨n, hrun⟩ := System.ends_iff.mp hends
  induction n generalizing s with
  | zero => cases hrun
  | succ n ih =>
      cases hstep : sys.step s with
      | going s' =>
          rw [System.run_succ_going hstep] at hrun
          exact ih (hgoing h hstep) (System.ends_iff.mpr ⟨n, hrun⟩) hrun
      | ended ending' =>
          rw [System.run_succ_ended hstep] at hrun
          cases hrun
          exact hended h hstep

namespace Body

variable {setting : Setting} {body : Body} {store : Store}

/-- With contents in every location every read is defined. -/
theorem read_of_full (h : store.Full) {loc : Loc} (hlt : loc.index < body.locations.size) :
    ∃ word, body.read setting store loc = some word := by
  rw [read, Array.getElem?_eq_getElem hlt]
  cases body.locations[loc.index] with
  | localVar | temp => exact h loc
  | global | constant | literal => exact ⟨_, rfl⟩

/-- A write keeps contents in every location. -/
theorem full_of_write (h : store.Full) {loc : Loc} {word : Word} {written : Store}
    (hwrite : body.write setting store loc word = some written) : written.Full := by
  obtain ⟨location, -, hwrite⟩ := Option.bind_eq_some_iff.mp hwrite
  have hlocal : (store.setLocal loc word).Full := by
    intro other
    by_cases heq : other = loc
    · subst heq
      exact ⟨word, Store.setLocal_locals_same _ _ _⟩
    · rw [Store.setLocal_locals_other heq]
      exact h other
  cases location with
  | global name => cases hwrite; exact h
  | localVar | temp => cases hwrite; exact hlocal
  | constant | literal => cases hwrite

/-- A call whose arguments are defined comes to no undefined read. -/
theorem callOut_full (h : store.Full) {calls : List CallEvent} {target : Symbol} {args : List Loc}
    (hargs : ∀ loc ∈ args, loc.index < body.locations.size) :
    match body.callOut setting store calls target args with
    | .ok reached => reached.store.Full
    | .error ending => ending.outcome ≠ .stuck := by
  have hwords : ∃ words, args.mapM (body.read setting store) = some words := by
    induction args with
    | nil => exact ⟨[], rfl⟩
    | cons loc args ih =>
        obtain ⟨word, hword⟩ := @read_of_full setting body _ h loc (hargs loc List.mem_cons_self)
        obtain ⟨words, hwords⟩ := ih fun other hother => hargs other (List.mem_cons_of_mem _ hother)
        exact ⟨word :: words, by simp [hword, hwords]⟩
  obtain ⟨words, hwords⟩ := hwords
  rw [callOut, hwords]
  dsimp only
  rw [callWith]
  cases (setting.environment (⟨setting.routine target, words, store.globals⟩ :: calls)).result with
  | ok value => exact h
  | error abort => exact Outcome.noConfusion

/-- A value whose operands are defined comes to no undefined read. -/
theorem evaluateValue_full (h : store.Full) {calls : List CallEvent} {value : Value}
    (hreads : ∀ access ∈ value.reads, access.loc.index < body.locations.size) :
    match body.evaluateValue setting store calls value with
    | .ok reached => reached.store.Full
    | .error ending => ending.outcome ≠ .stuck := by
  cases value with
  | load src =>
      obtain ⟨word, hword⟩ := @read_of_full setting body _ h src.loc (hreads src List.mem_cons_self)
      simp only [evaluateValue, hword]
      exact h
  | param inst index => exact h
  | unary inst op operand =>
      obtain ⟨word, hword⟩ :=
        @read_of_full setting body _ h operand.loc (hreads operand List.mem_cons_self)
      simp only [evaluateValue, hword]
      exact h
  | binary inst op lhs rhs =>
      obtain ⟨a, ha⟩ := @read_of_full setting body _ h lhs.loc (hreads lhs List.mem_cons_self)
      obtain ⟨b, hb⟩ := @read_of_full setting body _ h rhs.loc
        (hreads rhs (List.mem_cons_of_mem _ List.mem_cons_self))
      simp only [evaluateValue, ha, hb]
      cases setting.arithmetic.apply op a b with
      | some word => exact h
      | none => exact Outcome.noConfusion
  | call inst target args isExternal saved =>
      exact callOut_full h fun loc hloc => hreads ⟨inst, loc⟩ (List.mem_map.mpr ⟨loc, hloc, rfl⟩)

/-- What a step leaves: a store without gaps, or an ending that is not for the
    lack of contents. -/
def Continues : Progress Config → Prop
  | .going config => config.store.Full
  | .ended ending => ending.outcome ≠ .stuck

/-- A jump to a label that has a place goes on. -/
theorem continues_goTo {config : Config} (h : config.store.Full) {label : Label}
    (hlabel : ∃ block, body.labels[label.index]? = some (some block)) :
    Continues (body.goTo config label) := by
  obtain ⟨block, hblock⟩ := hlabel
  rw [goTo, hblock]
  exact h

/-- A statement of the body goes on or ends, and leaves contents in every location. -/
theorem continues_perform {config : Config} (h : config.store.Full) {stmt : Inst}
    {command : Command} (hvalid : command.Valid body stmt) :
    Continues (body.perform setting config command) := by
  cases command with
  | save value dest =>
      have hvalue := @evaluateValue_full setting body _ h config.calls value hvalid.reads
      obtain ⟨location, hlocation, hwritable⟩ := hvalid.dest dest rfl
      simp only [perform]
      cases hresult : body.evaluateValue setting config.store config.calls value with
      | error ending => rw [hresult] at hvalue; exact hvalue
      | ok reached =>
          rw [hresult] at hvalue
          obtain ⟨written, hwrite⟩ := @write_ok setting body dest location hlocation hwritable
            reached.store reached.value
          simp only [hwrite]
          exact full_of_write hvalue hwrite
  | call target args isExternal saved =>
      have hcall := @callOut_full setting body _ h config.calls target args fun loc hloc =>
        hvalid.reads ⟨stmt, loc⟩ (List.mem_map.mpr ⟨loc, hloc, rfl⟩)
      simp only [perform]
      cases hresult : body.callOut setting config.store config.calls target args with
      | error ending => rw [hresult] at hcall; exact hcall
      | ok reached => rw [hresult] at hcall; exact hcall
  | use loc => exact h
  | label place => exact h
  | jump target =>
      obtain ⟨block, hblock, -⟩ := hvalid.target target rfl
      exact continues_goTo h ⟨block, hblock⟩
  | branch cond target =>
      obtain ⟨block, hblock, -⟩ := hvalid.target target rfl
      obtain ⟨word, hword⟩ :=
        @read_of_full setting body _ h cond.loc (hvalid.reads cond List.mem_cons_self)
      simp only [perform, hword]
      split
      · exact continues_goTo h ⟨block, hblock⟩
      · exact h
  | ret value =>
      cases value with
      | none => exact Outcome.noConfusion
      | some value =>
          obtain ⟨word, hword⟩ :=
            @read_of_full setting body _ h value.loc (hvalid.reads value List.mem_cons_self)
          simp only [perform, hword]
          exact Outcome.noConfusion
  | exit code => exact Outcome.noConfusion

end Body

/-- **NOTHING UNDEFINED IS READ** in a run of a well-formed body that starts with
    contents in every location. -/
theorem WellFormed.unstuck_of_full {body : Body} (wf : WellFormed body) {setting : Setting}
    {store : Store} (h : store.Full) : (body.behaviour setting store).Unstuck := by
  -- what one step does
  have hstep : ∀ {config : Config}, body.At config.block config.rest ∧ config.store.Full →
      Body.Continues (body.stepFrom setting config) := by
    rintro config ⟨hat, hfull⟩
    cases hrest : config.rest with
    | nil =>
        rw [Body.stepFrom_nil hrest, Body.leave]
        cases body.next? config.block with
        | some block => exact hfull
        | none => exact Outcome.noConfusion
    | cons stmt rest =>
        -- the statement at the point is one of the body, whose labels have places
        obtain ⟨command, hcommand, hvalid⟩ :=
          wf.commands_of_at hat stmt (hrest ▸ List.mem_cons_self)
        rw [Body.stepFrom_eq hrest hcommand]
        exact @Body.continues_perform setting body { config with rest } hfull stmt command hvalid
  refine fun ending hends => System.ends_invariant
    (fun config => body.At config.block config.rest ∧ config.store.Full)
    (fun ending => ending.outcome ≠ .stuck) ?_ ?_ ⟨Body.At.start wf.blocks_pos, h⟩ hends
  · intro config next hconfig hgoing
    have hcontinues := hstep hconfig
    obtain ⟨hleads, -⟩ := Body.stepFrom_going (fun stmt hstmt =>
      (wf.commands_of_at hconfig.1 stmt hstmt).imp fun _ hcommand => hcommand.1) hgoing
    rw [show body.stepFrom setting config = .going next from hgoing] at hcontinues
    exact ⟨wf.at_leads hconfig.1 hleads, hcontinues⟩
  · intro config ending hconfig hended
    have hcontinues := hstep hconfig
    rw [show body.stepFrom setting config = .ended ending from hended] at hcontinues
    exact hcontinues

namespace DeadSaves

/-! ## Deletions succeed -/

variable {body : Body}

/-- A statement of the body can be removed. -/
theorem remove_ok {stmt : Inst} (h : stmt ∈ body.stmts) :
    ∃ after, body.remove stmt = .ok after := by
  rw [Body.remove, if_pos (Body.isPlaced_iff.mpr h)]
  exact ⟨_, rfl⟩

/-- A statement is replaced, unless the new one has the reserved key. -/
theorem replace_ok {old new : Inst} (hold : old ∈ body.stmts) (hnew : new ∉ body.stmts) :
    (∃ after, body.replace old new = .ok after) ∨
      (body.replace old new = .error .reservedKey ∧ new.index = KeyKind.inst.reserved) := by
  have hout : body.isPlaced new = false := by
    rw [← Bool.not_eq_true, Body.isPlaced_iff]
    exact hnew
  rw [Body.replace, Body.insertAfter, Body.checkPlacement, hout, Body.isPlaced_iff.mpr hold]
  cases hreserved : new.isReserved with
  | true => exact Or.inr ⟨rfl, eq_of_beq hreserved⟩
  | false =>
      left
      refine remove_ok (?_ : old ∈ (body.mapStmts (Body.putAfter new old)).stmts)
      rw [Body.stmts_putAfter]
      exact Body.mem_putAfter.mpr (Or.inl hold)

section

variable (wf : WellFormed body)
include wf

/-- A save that was not deleted yet is still a statement, and its call is none. -/
theorem placed_sweep {done : List Inst} {save : Inst} {value : Value} {dest : Loc}
    (hsave : save ∈ body.stmts) (hnew : save ∉ done)
    (hcommand : body.command? save = some (.save value dest)) :
    save ∈ (sweep body done).stmts ∧
      ∀ inst, value.callInst? = some inst → inst ∉ (sweep body done).stmts := by
  have hleft : leftOf body done save = [save] := by
    rw [leftOf, if_neg fun hmem => hnew (List.contains_iff_mem.mp hmem)]
  rw [stmts_sweep]
  refine ⟨List.mem_flatMap.mpr ⟨save, hsave, hleft ▸ List.mem_cons_self⟩, fun inst hinst hmem => ?_⟩
  obtain ⟨stmt, hstmt, hin⟩ := List.mem_flatMap.mp hmem
  -- the call belongs to the save, so nothing else can have left it
  have hfamily : inst ∈ body.family save := by
    cases value with
    | call made target args isExternal saved =>
        cases hinst
        rw [Body.family_eq hcommand]
        exact List.mem_append_left _ List.mem_cons_self
    | load | param | unary | binary => cases hinst
  have hsame := wf.owned stmt hstmt save hsave inst
    (leftOf_family wf hstmt hin (Body.mem_family_self _ _)) hfamily
  rw [hsame, hleft] at hin
  cases value with
  | call made target args isExternal saved =>
      cases hinst
      have hparts := Body.command?_eq_some.mp hcommand
      rw [List.mem_singleton.mp hin] at hparts
      have hrecord := hparts.1.symm.trans hparts.2
      cases hrecord
  | load | param | unary | binary => cases hinst

/-- A deletion succeeds, unless the key of the call that it leaves is reserved. -/
theorem delete_ok {done : List Inst} {save : Inst} (hsave : save ∈ body.stmts)
    (hnew : save ∉ done) (hidle : Idle body save) :
    delete (sweep body done) save = .ok (sweep body (done ++ [save])) ∨
      (delete (sweep body done) save = .error .reservedKey ∧
        KeyKind.inst.reserved < body.records.size) := by
  obtain ⟨value, dest, hcommand, -⟩ := id hidle
  obtain ⟨hplaced, hcall⟩ := placed_sweep wf hsave hnew hcommand
  have hparts := Body.command?_eq_some.mp hcommand
  have hrecord : ∀ {inst : Inst} {record : Record}, body.records[inst.index]? = some record →
      (sweep body done).record inst = .ok record := Body.record_eq
  -- what is deleted at all is deleted as it should be
  have hok : (∃ after, delete (sweep body done) save = .ok after) →
      delete (sweep body done) save = .ok (sweep body (done ++ [save])) := by
    rintro ⟨after, hdelete⟩
    rw [hdelete, delete_eq wf hsave hnew hidle hdelete]
  have hremove := remove_ok hplaced
  have hvalue := hparts.2
  cases value with
  | call inst target args isExternal saved =>
      have hdelete : delete (sweep body done) save = (sweep body done).replace save inst := by
        simp only [delete, hrecord hparts.1, Value.inst, hrecord hvalue, bind, Except.bind]
        rfl
      rcases replace_ok hplaced (hcall inst rfl) with hreplace | ⟨hreplace, hreserved⟩
      · exact Or.inl (hok (hdelete ▸ hreplace))
      · exact Or.inr ⟨hdelete.trans hreplace,
          hreserved ▸ (Array.getElem?_eq_some_iff.mp hvalue).1⟩
  | load src =>
      refine Or.inl (hok ?_)
      simp only [delete, hrecord hparts.1, Value.inst, hrecord hvalue, bind, Except.bind]
      exact hremove
  | param inst index =>
      refine Or.inl (hok ?_)
      simp only [delete, hrecord hparts.1, Value.inst, hrecord hvalue, bind, Except.bind]
      exact hremove
  | unary inst op operand =>
      refine Or.inl (hok ?_)
      simp only [delete, hrecord hparts.1, Value.inst, hrecord hvalue.1, bind, Except.bind]
      exact hremove
  | binary inst op lhs rhs =>
      refine Or.inl (hok ?_)
      simp only [delete, hrecord hparts.1, Value.inst, hrecord hvalue.1, bind, Except.bind]
      exact hremove

/-- All saves that are found are deleted. -/
theorem foldlM_delete_ok {done dead : List Inst} (hnodup : (done ++ dead).Nodup)
    (hdead : ∀ stmt ∈ dead, stmt ∈ body.stmts ∧ Idle body stmt) :
    dead.foldlM delete (sweep body done) = .ok (sweep body (done ++ dead)) ∨
      (dead.foldlM delete (sweep body done) = .error .reservedKey ∧
        KeyKind.inst.reserved < body.records.size) := by
  induction dead generalizing done with
  | nil =>
      rw [List.append_nil]
      exact Or.inl rfl
  | cons save dead ih =>
      obtain ⟨hsave, hidle⟩ := hdead save List.mem_cons_self
      have hnew : save ∉ done := fun hmem =>
        (List.nodup_append.mp hnodup).2.2 save hmem save List.mem_cons_self rfl
      have hassoc : done ++ save :: dead = (done ++ [save]) ++ dead := by
        rw [List.append_assoc]
        rfl
      rw [List.foldlM_cons]
      rcases delete_ok wf hsave hnew hidle with hok | ⟨herror, hreserved⟩
      · rw [hok, hassoc]
        exact ih (hassoc ▸ hnodup) fun stmt hstmt => hdead stmt (List.mem_cons_of_mem _ hstmt)
      · rw [herror]
        exact Or.inr ⟨rfl, hreserved⟩

/-! ## Rounds come to an end -/

omit wf in
/-- Whether a statement is a save. -/
def isSave (body : Body) (stmt : Inst) : Bool :=
  match body.command? stmt with
  | some (.save _ _) => true
  | _ => false

omit wf in
/-- A save is a statement whose command is one. -/
theorem isSave_iff {stmt : Inst} :
    isSave body stmt = true ↔ ∃ value dest, body.command? stmt = some (.save value dest) := by
  unfold isSave
  split
  · next value dest hcommand => exact ⟨fun _ => ⟨value, dest, hcommand⟩, fun _ => rfl⟩
  · next hnone =>
      refine iff_of_false Bool.false_ne_true ?_
      rintro ⟨value, dest, hcommand⟩
      exact hnone value dest hcommand

omit wf in
/-- What is left of a deleted save is no save. -/
theorem countP_leftOf (dead : List Inst) (stmt : Inst) :
    (leftOf body dead stmt).countP (isSave body) =
      if isSave body stmt && !dead.contains stmt then 1 else 0 := by
  rw [leftOf]
  cases dead.contains stmt with
  | false => rw [if_neg Bool.false_ne_true, List.countP_singleton, Bool.not_false, Bool.and_true]
  | true =>
      rw [if_pos rfl, Bool.not_true, Bool.and_false, if_neg Bool.false_ne_true]
      split
      · next value dest hcommand =>
          cases value with
          | call inst target args isExternal saved =>
              have hcall : body.command? inst = some (.call target args isExternal saved) :=
                Body.command?_eq_some.mpr (Body.command?_eq_some.mp hcommand).2
              show [inst].countP (isSave body) = 0
              rw [List.countP_singleton, isSave, hcall]
              rfl
          | load | param | unary | binary => rfl
      · next hnone =>
          have hno : isSave body stmt = false := by
            rw [← Bool.not_eq_true, isSave_iff]
            rintro ⟨value, dest, hcommand⟩
            exact hnone value dest hcommand
          rw [List.countP_singleton, hno]
          rfl

omit wf in
/-- The saves that are left are those that are not deleted. -/
theorem countP_sweep (dead : List Inst) :
    (sweep body dead).stmts.countP (isSave (sweep body dead)) =
      body.stmts.countP fun stmt => isSave body stmt && !dead.contains stmt := by
  have hsame : isSave (sweep body dead) = isSave body := by
    funext stmt
    rw [isSave, isSave, command?_sweep]
  rw [hsame, stmts_sweep]
  induction body.stmts with
  | nil => rfl
  | cons stmt stmts ih =>
      rw [List.flatMap_cons, List.countP_append, ih, countP_leftOf, List.countP_cons, Nat.add_comm]

omit wf in
/-- **EVERY ROUND DELETES A SAVE**, if it finds one. -/
theorem saves_sweep_lt {dead : List Inst} (hsome : dead ≠ [])
    (hdead : ∀ stmt ∈ dead, stmt ∈ body.stmts ∧ Idle body stmt) :
    (sweep body dead).stmts.countP (isSave (sweep body dead)) <
      body.stmts.countP (isSave body) := by
  obtain ⟨save, hsave⟩ := List.exists_mem_of_ne_nil dead hsome
  obtain ⟨hmem, value, dest, hcommand, -⟩ := hdead save hsave
  rw [countP_sweep]
  refine countP_lt_of_mem (fun stmt _ h => (Bool.and_eq_true_iff.mp h).1) hmem
    (isSave_iff.mpr ⟨value, dest, hcommand⟩) ?_
  rw [List.contains_iff_mem.mpr hsave, Bool.not_true, Bool.and_false]

/-- Rounds come to an end: more rounds than there are saves are enough. -/
theorem deleteWithin_ok {graph : FlowGraph} {rounds : Nat} (deleted : Nat) (hflow : graph.Of body)
    (hrounds : body.stmts.countP (isSave body) < rounds) :
    (∃ result, deleteWithin graph rounds deleted body = .ok result) ∨
      (deleteWithin graph rounds deleted body = .error .reservedKey ∧
        KeyKind.inst.reserved < body.records.size) := by
  -- by induction on the rounds: each one that finds something leaves fewer saves
  induction rounds generalizing body deleted with
  | zero => exact absurd hrounds (Nat.not_lt_zero _)
  | succ rounds ih =>
      obtain ⟨liveness, hliveness, hcomputed⟩ := Liveness.compute_ok wf hflow
      obtain ⟨dead, hfind, hnodup, hdead⟩ := find_ok wf hcomputed
      simp only [deleteWithin, hliveness, hfind, bind, Except.bind]
      by_cases hempty : dead.isEmpty = true
      · rw [if_pos hempty]
        exact Or.inl ⟨_, rfl⟩
      · rw [if_neg hempty]
        have hfold := @foldlM_delete_ok body wf [] dead hnodup hdead
        rw [sweep_nil] at hfold
        rcases hfold with hok | ⟨herror, hreserved⟩
        · rw [hok]
          have hlt := saves_sweep_lt (fun hnil => hempty (List.isEmpty_iff.mpr hnil)) hdead
          exact ih (sweep_wellFormed wf) _ (sweep_flow wf hflow) (by rw [List.nil_append]; omega)
        · rw [herror]
          exact Or.inr ⟨rfl, hreserved⟩

end

end DeadSaves

/-- Elimination gives a body, unless there are too many records for their keys. -/
theorem eliminateDeadSaves_ok {body : Body} (wf : WellFormed body) :
    (∃ result, eliminateDeadSaves body = .ok result) ∨
      (eliminateDeadSaves body = .error .reservedKey ∧
        KeyKind.inst.reserved < body.records.size) := by
  obtain ⟨graph, hgraph, hflow⟩ := wf.flowGraph_ok
  simp only [eliminateDeadSaves, hgraph, bind, Except.bind]
  exact DeadSaves.deleteWithin_ok wf 0 hflow (Nat.lt_succ_of_le List.countP_le_length)

/-- **DEAD SAVES ARE ELIMINATED SOUNDLY**: a run that does not come to a trap
    makes the same calls, ends the same way and leaves the same fields.  It may
    start with any contents of the locations, or with some undefined ones that
    are not read. -/
theorem eliminateDeadSaves_same_behaviour {body : Body} (wf : WellFormed body) {setting : Setting}
    {store : Store} (hstore : store.Full ∨ (body.behaviour setting store).Unstuck)
    (htrap : (body.behaviour setting store).Untrapped) :
    match eliminateDeadSaves body with
    | .ok (_, after) => WellFormed after ∧
        Behaviour.Same (body.behaviour setting store) (after.behaviour setting store)
    | .error fault => fault = .reservedKey ∧ KeyKind.inst.reserved < body.records.size := by
  have hstuck : (body.behaviour setting store).Unstuck := hstore.elim wf.unstuck_of_full id
  rcases eliminateDeadSaves_ok wf with ⟨⟨count, after⟩, hok⟩ | ⟨herror, hreserved⟩
  · have hswept := eliminateDeadSaves_swept wf hok
    rw [hok]
    exact ⟨hswept.wellFormed, hswept.same fun ending hends =>
      ⟨hstuck ending hends, htrap ending hends⟩⟩
  · rw [herror]
    exact ⟨rfl, hreserved⟩

/-- A body with a chain of saves that nothing reads, a copy of a variable to
    itself between a save and its read, and a call whose result is not read. -/
def idleSaves : Body where
  name := ⟨0⟩
  records := #[.param 0, .save ⟨0⟩ ⟨0⟩,
    .load ⟨0⟩, .save ⟨2⟩ ⟨1⟩,
    .load ⟨1⟩, .load ⟨1⟩, .binary .mul ⟨4⟩ ⟨5⟩, .save ⟨6⟩ ⟨2⟩,
    .load ⟨0⟩, .save ⟨8⟩ ⟨0⟩,
    .call ⟨7⟩ [⟨0⟩] false [], .save ⟨10⟩ ⟨1⟩,
    .load ⟨0⟩, .ret (some ⟨12⟩)]
  locations := #[.localVar ⟨1⟩, .localVar ⟨2⟩, .localVar ⟨3⟩]
  labels := #[]
  blocks := #[⟨none, [⟨1⟩, ⟨3⟩, ⟨7⟩, ⟨9⟩, ⟨11⟩, ⟨13⟩]⟩]

/-- Four saves are deleted in two rounds, and the call stays. -/
theorem idleSaves_same_behaviour :
    ((eliminateDeadSaves idleSaves).toOption.map fun result => (result.1, result.2.stmts)) =
      some (4, [⟨1⟩, ⟨10⟩, ⟨13⟩]) ∧
    match eliminateDeadSaves idleSaves with
    | .ok (_, after) => WellFormed after ∧
        Behaviour.Same (idleSaves.behaviour CommonTerms.quietSetting ⟨fun _ => some 3, fun _ => 0⟩)
          (after.behaviour CommonTerms.quietSetting ⟨fun _ => some 3, fun _ => 0⟩)
    | .error fault => fault = .reservedKey ∧ KeyKind.inst.reserved < idleSaves.records.size := by
  refine ⟨by decide +kernel, ?_⟩
  refine eliminateDeadSaves_same_behaviour (by decide +kernel) (Or.inl fun loc => ⟨3, rfl⟩) ?_
  intro ending hends
  obtain ⟨n, hrun⟩ := System.ends_iff.mp hends
  have hreturns : ∃ last, (idleSaves.execution CommonTerms.quietSetting).run 6
      (idleSaves.start ⟨fun _ => some 3, fun _ => 0⟩) = .ended last ∧
        last.outcome = .returned (some 0) := ⟨_, rfl, rfl⟩
  obtain ⟨last, hlast, houtcome⟩ := hreturns
  rw [System.ended_unique hrun hlast, houtcome]
  exact Outcome.noConfusion

end DecafBackend
