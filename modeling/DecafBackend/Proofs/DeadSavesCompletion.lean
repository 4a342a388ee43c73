import DecafBackend.Proofs.DeadSavesElimination

/-! # What is left when no save is dead

    Rounds of deletions add up to one: what is deleted in a later round was left
    by the earlier ones.  What all rounds leave of a block are its statements in
    their order, less the deleted saves, of which only the calls stay.  The last
    round finds nothing, and so does a second run.

    * `sweep_sweep` — two rounds are one
    * `deleteWithin_sweeps` — what all rounds delete
    * `find_nil` — a round that finds nothing
    * `calls_sweep`, `kept_sweep` — the calls and the statements that stay
    * `Purged`, `eliminateDeadSaves_purged` — the body in the end -/

namespace DecafBackend

namespace DeadSaves

variable {body : Body} {gone dead : List Inst}

/-! ## Rounds add up -/

/-- A statement that is not deleted is left. -/
theorem leftOf_of_not_mem {stmt : Inst} (h : stmt ∉ dead) : leftOf body dead stmt = [stmt] := by
  rw [leftOf, if_neg fun hmem => h (List.contains_iff_mem.mp hmem)]

/-- What is no save is left. -/
theorem leftOf_of_not_save {stmt : Inst} (h : isSave body stmt = false) :
    leftOf body dead stmt = [stmt] := by
  rcases leftOf_cases body dead stmt with hkept | ⟨value, dest, hcommand, -⟩
  · exact hkept
  · rw [isSave_iff.mpr ⟨value, dest, hcommand⟩] at h
    cases h

/-- A save that is left was there before, and was not deleted. -/
theorem mem_leftOf_save {stmt inst : Inst} (hinst : inst ∈ leftOf body dead stmt)
    (hsave : isSave body inst = true) : inst = stmt ∧ stmt ∉ dead := by
  have hkept : stmt ∉ dead := by
    intro hmem
    have hnone := @countP_leftOf body dead stmt
    rw [List.contains_iff_mem.mpr hmem, Bool.not_true, Bool.and_false,
      if_neg Bool.false_ne_true] at hnone
    exact List.countP_eq_zero.mp hnone inst hinst hsave
  rw [leftOf_of_not_mem hkept] at hinst
  exact ⟨List.mem_singleton.mp hinst, hkept⟩

/-- What two rounds leave of a statement. -/
theorem flatMap_leftOf (stmt : Inst) :
    (leftOf body gone stmt).flatMap (leftOf (sweep body gone) dead) =
      leftOf body (gone ++ dead) stmt := by
  have hsame : leftOf (sweep body gone) dead = leftOf body dead := by
    funext inst
    rw [leftOf, leftOf, command?_sweep]
  rw [hsame]
  by_cases hgone : stmt ∈ gone
  · -- the first round leaves no save
    have hnone : ∀ inst ∈ leftOf body gone stmt, leftOf body dead inst = [inst] := by
      intro inst hinst
      refine leftOf_of_not_save (Bool.eq_false_iff.mpr fun hsave => ?_)
      exact (mem_leftOf_save hinst hsave).2 hgone
    rw [List.flatMap_congr hnone, List.flatMap_singleton', leftOf, leftOf,
      if_pos (List.contains_iff_mem.mpr hgone),
      if_pos (List.contains_iff_mem.mpr (List.mem_append_left _ hgone))]
  · rw [leftOf_of_not_mem hgone, List.flatMap_singleton]
    have hmem : (gone ++ dead).contains stmt = dead.contains stmt := by
      rw [Bool.eq_iff_iff, List.contains_iff_mem, List.contains_iff_mem, List.mem_append]
      exact or_iff_right hgone
    rw [leftOf, leftOf, hmem]

/-- **TWO ROUNDS ARE ONE**. -/
theorem sweep_sweep : sweep (sweep body gone) dead = sweep body (gone ++ dead) := by
  rw [sweep, sweep, Body.mapStmts, Body.mapStmts, Array.map_map]
  congr 1
  refine Array.map_congr_left fun basic _ => ?_
  show ({ basic with stmts := _ } : BasicBlock) = { basic with stmts := _ }
  congr 1
  rw [List.flatMap_assoc]
  exact List.flatMap_congr fun stmt _ => flatMap_leftOf stmt

/-- What saves to variables and temporaries rounds delete. -/
structure Deleted (body : Body) (gone : List Inst) : Prop where
  nodup : gone.Nodup
  mem : ∀ stmt ∈ gone, stmt ∈ body.stmts
  saves : ∀ stmt ∈ gone, ∃ value dest,
    body.command? stmt = some (.save value dest) ∧ body.tracks dest = true

/-- What is deleted is a save. -/
theorem Deleted.isSave (h : Deleted body gone) {stmt : Inst} (hstmt : stmt ∈ gone) :
    isSave body stmt = true := by
  obtain ⟨value, dest, hcommand, -⟩ := h.saves stmt hstmt
  exact isSave_iff.mpr ⟨value, dest, hcommand⟩

/-- A round behind others deletes more saves of the same body. -/
theorem Deleted.append (h : Deleted body gone) (h' : Deleted (sweep body gone) dead) :
    Deleted body (gone ++ dead) := by
  -- what the second round deletes was left by the first one
  have hleft : ∀ stmt ∈ dead, stmt ∈ body.stmts ∧ stmt ∉ gone := by
    intro stmt hstmt
    have hmem := h'.mem stmt hstmt
    rw [stmts_sweep] at hmem
    obtain ⟨old, hold, hfrom⟩ := List.mem_flatMap.mp hmem
    obtain ⟨value, dest, hcommand, -⟩ := h'.saves stmt hstmt
    rw [command?_sweep] at hcommand
    obtain ⟨rfl, hkept⟩ := mem_leftOf_save hfrom (isSave_iff.mpr ⟨value, dest, hcommand⟩)
    exact ⟨hold, hkept⟩
  refine ⟨List.nodup_append.mpr ⟨h.nodup, h'.nodup, ?_⟩, fun stmt hstmt => ?_, fun stmt hstmt => ?_⟩
  · rintro stmt hgone _ hdead rfl
    exact (hleft stmt hdead).2 hgone
  · exact (List.mem_append.mp hstmt).elim (h.mem stmt) fun hdead => (hleft stmt hdead).1
  · refine (List.mem_append.mp hstmt).elim (h.saves stmt) fun hdead => ?_
    obtain ⟨value, dest, hcommand, htracks⟩ := h'.saves stmt hdead
    exact ⟨value, dest, (command?_sweep stmt).symm.trans hcommand, htracks⟩

/-- What all rounds delete, up to the one that finds nothing. -/
theorem deleteWithin_sweeps (wf : WellFormed body) {graph : FlowGraph}
    {rounds deleted count : Nat} {after : Body} (hflow : graph.Of body)
    (h : deleteWithin graph rounds deleted body = .ok (count, after)) :
    ∃ gone, after = sweep body gone ∧ Deleted body gone ∧ count = deleted + gone.length ∧
      ∃ liveness, Liveness.compute after graph = .ok liveness ∧ find after liveness = .ok [] := by
  -- the later rounds start from the body that this one leaves
  induction rounds generalizing body deleted with
  | zero => cases h
  | succ rounds ih =>
      rcases deleteWithin_cases wf hflow h with ⟨rfl, rfl, hlast⟩ | ⟨dead, hnodup, hdead, h⟩
      · exact ⟨[], sweep_nil.symm, ⟨List.nodup_nil, nofun, nofun⟩, rfl, hlast⟩
      · obtain ⟨gone, rfl, hgone, rfl, hlast⟩ := ih (sweep_wellFormed wf) (sweep_flow wf hflow) h
        have hround : Deleted body dead := by
          refine ⟨hnodup, fun stmt hstmt => (hdead stmt hstmt).1, fun stmt hstmt => ?_⟩
          obtain ⟨value, dest, hcommand, htracks, -⟩ := (hdead stmt hstmt).2
          exact ⟨value, dest, hcommand, htracks⟩
        refine ⟨dead ++ gone, sweep_sweep, hround.append hgone, ?_, hlast⟩
        rw [List.length_append, Nat.add_assoc]

/-! ## A round that finds nothing -/

/-- **IF NOTHING IS FOUND**, no definition is dead, and nothing copies a variable
    or temporary to itself. -/
theorem find_nil (wf : WellFormed body) {graph : FlowGraph} {liveness : Liveness}
    (hcomputed : liveness.Computed body graph) (h : find body liveness = .ok []) :
    (∀ stmt, liveness.isDead stmt = false) ∧
      ∀ {stmt inst : Inst} {loc : Loc}, stmt ∈ body.stmts →
        body.command? stmt = some (.save (.load ⟨inst, loc⟩) loc) → body.tracks loc = false := by
  obtain ⟨test, htest, hnone⟩ := Checked.filterM_eq_ok h
  have hfails : ∀ stmt ∈ body.stmts, test stmt = false := fun stmt hstmt =>
    Bool.eq_false_iff.mpr (List.filter_eq_nil_iff.mp hnone.symm stmt hstmt)
  have hdead : ∀ stmt ∈ body.stmts, liveness.isDead stmt = false := by
    intro stmt hstmt
    refine Bool.eq_false_iff.mpr fun hdead => ?_
    have hresult := htest stmt hstmt
    rw [hdead, if_pos rfl, hfails stmt hstmt] at hresult
    cases hresult
  refine ⟨fun stmt => ?_, fun {stmt inst loc} hstmt hcommand => ?_⟩
  · by_cases hstmt : stmt ∈ body.stmts
    · exact hdead stmt hstmt
    · refine Bool.eq_false_iff.mpr fun hin => hstmt (hcomputed.keys ?_)
      exact Maps.mem_of_getElem? (beq_iff_eq.mp hin)
  · -- the test answers no only if the save copies nothing to itself either
    have hresult := htest stmt hstmt
    obtain ⟨command, hcommand', hvalid⟩ := wf.commands stmt hstmt
    rw [hcommand] at hcommand'
    cases hcommand'
    rw [hdead stmt hstmt, if_neg Bool.false_ne_true, isSelfCopy_eq hcommand hvalid,
      hfails stmt hstmt, copiesSelf, decide_eq_true rfl, Bool.true_and] at hresult
    exact Except.ok.inj hresult

/-! ## What stays -/

/-- The deletion of saves keeps the flow graph. -/
theorem ofBody_sweep (wf : WellFormed body) :
    FlowGraph.ofBody (sweep body gone) = FlowGraph.ofBody body := by
  have hsize : (sweep body gone).blocks.size = body.blocks.size := Body.size_mapStmts _
  have hkeys : (sweep body gone).blockKeys = body.blockKeys := by
    rw [Body.blockKeys, Body.blockKeys, hsize]
  have hsuccessors : (sweep body gone).successors = body.successors :=
    funext (successors_sweep wf)
  rw [FlowGraph.ofBody, FlowGraph.ofBody, hkeys, hsuccessors, hsize]

/-- Statements stay where they are, if they are not deleted. -/
theorem mem_left_iff (hgone : Deleted body gone) {stmts : List Inst} {stmt : Inst}
    (hstmt : stmt ∈ stmts) : stmt ∈ stmts.flatMap (leftOf body gone) ↔ stmt ∉ gone := by
  rw [List.mem_flatMap]
  constructor
  · rintro ⟨old, -, hold⟩ hmem
    obtain ⟨rfl, hkept⟩ := mem_leftOf_save hold (hgone.isSave hmem)
    exact hkept hmem
  · intro hkept
    exact ⟨stmt, hstmt, leftOf_of_not_mem hkept ▸ List.mem_cons_self⟩

/-- The statements that are left are those that are not deleted. -/
theorem mem_stmts_sweep (hgone : Deleted body gone) {stmt : Inst} (hstmt : stmt ∈ body.stmts) :
    stmt ∈ (sweep body gone).stmts ↔ stmt ∉ gone := by
  rw [stmts_sweep]
  exact mem_left_iff hgone hstmt

/-- **THE DELETED SAVES ARE COUNTED**. -/
theorem length_eq_countP (wf : WellFormed body) (hgone : Deleted body gone) : gone.length =
    body.stmts.countP fun stmt => isSave body stmt && !(sweep body gone).stmts.contains stmt := by
  have hperm : (body.stmts.filter gone.contains).Perm gone := by
    refine (List.perm_ext_iff_of_nodup (wf.distinct.filter _) hgone.nodup).mpr fun stmt => ?_
    rw [List.mem_filter, List.contains_iff_mem]
    exact ⟨And.right, fun hmem => ⟨hgone.mem stmt hmem, hmem⟩⟩
  rw [← hperm.length_eq, ← List.countP_eq_length_filter]
  refine List.countP_congr fun stmt hstmt => ?_
  rw [Bool.and_eq_true_iff, Bool.not_eq_true', ← Bool.not_eq_true, List.contains_iff_mem,
    List.contains_iff_mem, mem_stmts_sweep hgone hstmt, not_not]
  exact ⟨fun hmem => ⟨hgone.isSave hmem, hmem⟩, And.right⟩

/-- The call that a statement makes. -/
def callOf? (body : Body) (stmt : Inst) : Option Inst :=
  (body.command? stmt).bind (Command.callInst? stmt)

/-- The call of a statement of the body is found. -/
theorem callIn?_eq_callOf? (wf : WellFormed body) {stmt : Inst} (hstmt : stmt ∈ body.stmts) :
    body.callIn? stmt = .ok (callOf? body stmt) := by
  obtain ⟨command, hcommand, -⟩ := wf.commands stmt hstmt
  rw [Body.callIn?_eq hcommand, callOf?, hcommand, Option.bind_some]

/-- What is left of a statement makes the call that the statement makes. -/
theorem filterMap_callOf?_leftOf (stmt : Inst) :
    (leftOf body gone stmt).filterMap (callOf? body) = [stmt].filterMap (callOf? body) := by
  rcases leftOf_cases body gone stmt with hkept | ⟨value, dest, hcommand, -, hcall⟩
  · rw [hkept]
  · have hmade : callOf? body stmt = value.callInst? := by
      rw [callOf?, hcommand]
      rfl
    rw [hcall]
    cases value with
    | call inst target args isExternal saved =>
        have hleft : body.command? inst = some (.call target args isExternal saved) :=
          Body.command?_eq_some.mpr (Body.command?_eq_some.mp hcommand).2
        have hsame : callOf? body inst = some inst := by
          rw [callOf?, hleft]
          rfl
        rw [List.filterMap_cons_some hmade, ← List.filterMap_cons_some hsame]
        rfl
    | load | param | unary | binary =>
        rw [List.filterMap_cons_none hmade]
        rfl

/-- **THE CALLS STAY** the same, in the same order. -/
theorem calls_sweep (wf : WellFormed body) (block : Block) : ∃ calls,
    (body.stmtsOf block).filterMapM body.callIn? = .ok calls ∧
      ((sweep body gone).stmtsOf block).filterMapM (sweep body gone).callIn? = .ok calls := by
  refine ⟨(body.stmtsOf block).filterMap (callOf? body), Checked.filterMapM_eq fun stmt hstmt =>
    callIn?_eq_callOf? wf (Body.mem_stmts_of_stmtsOf hstmt), ?_⟩
  have hcalls : ((sweep body gone).stmtsOf block).filterMapM (sweep body gone).callIn? =
      .ok (((sweep body gone).stmtsOf block).filterMap (callOf? (sweep body gone))) :=
    Checked.filterMapM_eq fun stmt hstmt =>
      callIn?_eq_callOf? (sweep_wellFormed wf) (Body.mem_stmts_of_stmtsOf hstmt)
  have hsame : callOf? (sweep body gone) = callOf? body := by
    funext stmt
    rw [callOf?, callOf?, command?_sweep]
  rw [hcalls, hsame, stmtsOf_sweep,
    flatMap_distrib (List.filterMap_nil) (fun a b => List.filterMap_append),
    List.flatMap_congr fun stmt _ => filterMap_callOf?_leftOf stmt,
    ← flatMap_distrib (List.filterMap_nil) (fun a b => List.filterMap_append)
      (fun stmt => [stmt]), List.flatMap_singleton']

/-- What is left of a statement and is no statement of the body is the call of a
    deleted save. -/
theorem call_of_new {block : Block} {inst : Inst} (hinst : inst ∈ (sweep body gone).stmtsOf block)
    (hnew : inst ∉ body.stmtsOf block) : ∃ save value dest, save ∈ body.stmtsOf block ∧
      save ∈ gone ∧ body.command? save = some (.save value dest) ∧
        value.callInst? = some inst := by
  rw [stmtsOf_sweep] at hinst
  obtain ⟨stmt, hstmt, hleft⟩ := List.mem_flatMap.mp hinst
  rcases leftOf_cases body gone stmt with hkept | ⟨value, dest, hcommand, hmem, hcall⟩
  · rw [hkept, List.mem_singleton] at hleft
    exact absurd (hleft ▸ hstmt) hnew
  · rw [hcall, Option.mem_toList] at hleft
    exact ⟨stmt, value, dest, hstmt, hmem, hcommand, hleft⟩

/-- **THE OTHER STATEMENTS STAY** in their blocks, in the same order. -/
theorem kept_sweep (wf : WellFormed body) (hgone : Deleted body gone) (block : Block) :
    ((sweep body gone).stmtsOf block).filter body.stmts.contains =
      (body.stmtsOf block).filter (sweep body gone).stmts.contains := by
  -- statement by statement, both sides keep the statement just where it is not deleted
  have hleft : ∀ stmt ∈ body.stmtsOf block, (leftOf body gone stmt).filter body.stmts.contains =
      [stmt].filter (sweep body gone).stmts.contains := by
    intro stmt hstmt
    have hmem := Body.mem_stmts_of_stmtsOf hstmt
    have hstays := mem_stmts_sweep hgone hmem
    by_cases hdeleted : stmt ∈ gone
    · -- the call of the save was no statement
      have hnone : ∀ inst ∈ leftOf body gone stmt, ¬ body.stmts.contains inst = true := by
        intro inst hinst hold
        rcases leftOf_cases body gone stmt with hkept | ⟨value, dest, hcommand, -, hcall⟩
        · exact (mem_leftOf_save (hkept ▸ List.mem_cons_self) (hgone.isSave hdeleted)).2 hdeleted
        · rw [hcall, Option.mem_toList] at hinst
          have hout := (placed_sweep wf hmem List.not_mem_nil hcommand).2 inst hinst
          rw [sweep_nil] at hout
          exact hout (List.contains_iff_mem.mp hold)
      rw [List.filter_eq_nil_iff.mpr hnone, List.filter_cons_of_neg, List.filter_nil]
      rw [List.contains_iff_mem, hstays]
      exact not_not_intro hdeleted
    · rw [leftOf_of_not_mem hdeleted, List.filter_cons_of_pos, List.filter_cons_of_pos]
      · rw [List.filter_nil, List.filter_nil]
      · exact List.contains_iff_mem.mpr (hstays.mpr hdeleted)
      · exact List.contains_iff_mem.mpr hmem
  rw [stmtsOf_sweep, flatMap_distrib List.filter_nil List.filter_append, List.flatMap_congr hleft,
    ← flatMap_distrib List.filter_nil List.filter_append (fun stmt => [stmt]),
    List.flatMap_singleton']

end DeadSaves

/-! ## The body in the end -/

open DeadSaves in
/-- What is left of a body when all its dead saves are deleted.  No definition is
    dead, no variable or temporary is copied to itself, and there is nothing more
    to delete.  Saves to variables and temporaries are gone, as many as were
    counted, and the calls that they made stand in their places. -/
structure Purged (body : Body) (count : Nat) (after : Body) : Prop where
  wellFormed : WellFormed after
  swept : ∃ gone, after = sweep body gone
  alive : ∃ liveness, Liveness.ofBody after = .ok liveness ∧ ∀ stmt, liveness.isDead stmt = false
  noSelfCopy : ∀ {stmt inst : Inst} {loc : Loc}, stmt ∈ after.stmts →
    after.command? stmt = some (.save (.load ⟨inst, loc⟩) loc) → after.tracks loc = false
  settled : eliminateDeadSaves after = .ok (0, after)
  count : count = body.stmts.countP fun stmt => isSave body stmt && !after.stmts.contains stmt
  removed : ∀ {block : Block} {stmt : Inst}, stmt ∈ body.stmtsOf block →
    stmt ∉ after.stmtsOf block →
      ∃ value dest, body.command? stmt = some (.save value dest) ∧ body.tracks dest = true
  globals : ∀ {block : Block} {stmt : Inst} {value : Value} {dest : Loc} {name : Symbol},
    stmt ∈ body.stmtsOf block → body.command? stmt = some (.save value dest) →
    body.locations[dest.index]? = some (.global name) → stmt ∈ after.stmtsOf block
  calls : ∀ block, ∃ calls, (body.stmtsOf block).filterMapM body.callIn? = .ok calls ∧
    (after.stmtsOf block).filterMapM after.callIn? = .ok calls
  kept : ∀ block, (after.stmtsOf block).filter body.stmts.contains =
    (body.stmtsOf block).filter after.stmts.contains
  added : ∀ {block : Block} {inst : Inst}, inst ∈ after.stmtsOf block → inst ∉ body.stmtsOf block →
    ∃ save value dest, save ∈ body.stmtsOf block ∧ save ∉ after.stmtsOf block ∧
      body.command? save = some (.save value dest) ∧ value.callInst? = some inst

/-- **DEAD SAVES ARE ELIMINATED COMPLETELY**, and nothing else is. -/
theorem eliminateDeadSaves_purged {body : Body} (wf : WellFormed body) :
    match eliminateDeadSaves body with
    | .ok (count, after) => Purged body count after
    | .error fault => fault = .reservedKey ∧ KeyKind.inst.reserved < body.records.size := by
  rcases eliminateDeadSaves_ok wf with ⟨⟨count, after⟩, hok⟩ | ⟨herror, hreserved⟩
  · rw [hok]
    obtain ⟨graph, hgraph, hflow⟩ := wf.flowGraph_ok
    rw [eliminateDeadSaves, hgraph] at hok
    obtain ⟨gone, rfl, hgone, rfl, liveness, hliveness, hfind⟩ :=
      DeadSaves.deleteWithin_sweeps wf hflow hok
    have wf' : WellFormed (DeadSaves.sweep body gone) := DeadSaves.sweep_wellFormed wf
    have hgraph' : FlowGraph.ofBody (DeadSaves.sweep body gone) = .ok graph :=
      (DeadSaves.ofBody_sweep wf).trans hgraph
    obtain ⟨computed, hcomputed, hspec⟩ :=
      Liveness.compute_ok wf' (DeadSaves.sweep_flow wf hflow)
    cases hliveness.symm.trans hcomputed
    obtain ⟨halive, hnoSelfCopy⟩ := DeadSaves.find_nil wf' hspec hfind
    have hremoved : ∀ {block : Block} {stmt : Inst}, stmt ∈ body.stmtsOf block →
        (stmt ∉ (DeadSaves.sweep body gone).stmtsOf block ↔ stmt ∈ gone) := by
      intro block stmt hstmt
      rw [DeadSaves.stmtsOf_sweep, DeadSaves.mem_left_iff hgone hstmt, not_not]
    refine ⟨wf', ⟨gone, rfl⟩, ⟨liveness, ?_, halive⟩, hnoSelfCopy, ?_, ?_, ?_, ?_,
      DeadSaves.calls_sweep wf, DeadSaves.kept_sweep wf hgone, ?_⟩
    · rw [Liveness.ofBody, hgraph']
      exact hliveness
    · rw [eliminateDeadSaves, hgraph']
      simp only [DeadSaves.deleteWithin, hliveness, hfind, bind, Except.bind]
      rfl
    · rw [Nat.zero_add]
      exact DeadSaves.length_eq_countP wf hgone
    · intro block stmt hstmt hout
      exact hgone.saves stmt ((hremoved hstmt).mp hout)
    · intro block stmt value dest name hstmt hcommand hlocation
      refine Classical.byContradiction fun hout => ?_
      obtain ⟨value', dest', hcommand', htracks⟩ := hgone.saves stmt ((hremoved hstmt).mp hout)
      rw [hcommand] at hcommand'
      cases hcommand'
      rw [Body.tracks, hlocation] at htracks
      cases htracks
    · intro block inst hinst hnew
      obtain ⟨save, value, dest, hsave, hmem, hcommand, hcall⟩ := DeadSaves.call_of_new hinst hnew
      exact ⟨save, value, dest, hsave, (hremoved hsave).mpr hmem, hcommand, hcall⟩
  · rw [herror]
    exact ⟨rfl, hreserved⟩

/-- A chain of saves is deleted in two rounds, and a call stays. -/
theorem idleSaves_purged : WellFormed idleSaves ∧
    ((eliminateDeadSaves idleSaves).toOption.map Prod.fst) = some 4 ∧
    match eliminateDeadSaves idleSaves with
    | .ok (count, after) => Purged idleSaves count after
    | .error fault => fault = .reservedKey ∧ KeyKind.inst.reserved < idleSaves.records.size := by
  have wf : WellFormed idleSaves := by decide +kernel
  exact ⟨wf, by decide +kernel, eliminateDeadSaves_purged wf⟩

end DecafBackend
