import DecafBackend.Proofs.Allocation
import DecafBackend.Proofs.LivenessExactness
import DecafBackend.Proofs.Webs
import Mathlib.Data.Set.Basic

/-! # Initialized bodies

    On every way from the entry of a body, a variable or temporary is saved before
    it is read.  Then nothing is live at the entry.

    * `Body.savedBy`, `Body.Initialized` — what is saved, and saved before it is read
    * `Spares.way` — a way that spares a location has no save of it
    * `initialized_iff` — initialized bodies are those with nothing live at the entry
    * `Initialized.liveIn` — what liveness computes for the entry is empty
    * `Initialized.not_reads_defless` — no web without definitions is read -/

namespace DecafBackend

namespace Body

variable {body : Body}

/-- The locations that some statements save. -/
def savedBy (body : Body) (stmts : List Inst) : Set Loc :=
  {loc | ∃ stmt ∈ stmts, body.Saves stmt loc}

/-- No statements save nothing. -/
theorem savedBy_nil (body : Body) : body.savedBy [] = ∅ :=
  Set.eq_empty_iff_forall_notMem.mpr fun _ ⟨_, h, _⟩ => by cases h

/-- What is saved one after the other. -/
theorem savedBy_append (body : Body) (stmts stmts' : List Inst) :
    body.savedBy (stmts ++ stmts') = body.savedBy stmts ∪ body.savedBy stmts' := by
  ext loc
  simp only [savedBy, List.mem_append, Set.mem_union, Set.mem_ofPred_eq, or_and_right, exists_or]

/-- What a statement saves to is its destination. -/
theorem saves_iff {stmt : Inst} {command : Command} (hcommand : body.command? stmt = some command)
    {loc : Loc} : body.Saves stmt loc ↔ command.dest? = some loc := by
  constructor
  · rintro ⟨value, hsave⟩
    cases hcommand.symm.trans hsave
    rfl
  · intro hdest
    obtain ⟨value, rfl⟩ := Command.eq_save hdest
    exact ⟨value, hcommand⟩

/-- One statement saves to its destination. -/
theorem savedBy_singleton {stmt : Inst} {command : Command}
    (hcommand : body.command? stmt = some command) :
    body.savedBy [stmt] = {loc | command.dest? = some loc} := by
  ext loc
  simp only [savedBy, List.mem_singleton, exists_eq_left, saves_iff hcommand, Set.mem_ofPred_eq]

/-- The statement at a point writes a location if it saves into it. -/
theorem writes_iff {loc : Loc} {block : Block} {stmt : Inst} {rest : List Inst} :
    body.Writes loc ⟨block, stmt :: rest⟩ ↔ body.Saves stmt loc := by
  constructor
  · rintro ⟨_, _, command, hrest, hcommand, hdest⟩
    cases hrest
    exact (saves_iff hcommand).mpr hdest
  · rintro ⟨value, hsave⟩
    exact ⟨stmt, rest, _, rfl, hsave, rfl⟩

/-- On every way from the entry, a variable or temporary is saved before it is
    read. -/
def Initialized (body : Body) : Prop :=
  ∀ passed point access,
    body.Way (body.startOf ⟨0⟩) passed point → body.ReadsBy access point →
      body.tracks access.loc = true → access.loc ∈ body.savedBy passed

/-- Sparing a location, control goes a way without a save of it. -/
theorem Spares.way {loc : Loc} {point last : Point} (h : body.Spares loc point last) :
    ∃ passed, body.Way point passed last ∧ loc ∉ body.savedBy passed := by
  induction h with
  | refl point => exact ⟨[], .stay point, by rw [savedBy_nil]; exact id⟩
  | @step point next last hleads hwrites _ ih =>
      obtain ⟨passed, hway, hsaves⟩ := ih
      obtain ⟨block, rest⟩ := point
      cases rest with
      | nil => exact ⟨passed, .leave rfl hleads hway, hsaves⟩
      | cons stmt rest =>
          refine ⟨stmt :: passed, .pass rfl hleads hway, ?_⟩
          rintro ⟨other, hother, hsave⟩
          rcases List.mem_cons.mp hother with rfl | hother
          · exact hwrites (writes_iff.mpr hsave)
          · exact hsaves ⟨other, hother, hsave⟩

/-- **NOTHING IS LIVE AT THE ENTRY** of initialized bodies, and of no others. -/
theorem initialized_iff : body.Initialized ↔
    ∀ access, body.tracks access.loc = true → ¬ body.Live access (body.startOf ⟨0⟩) := by
  constructor
  · rintro h access htracks ⟨last, hspares, hreads⟩
    obtain ⟨passed, hway, hsaves⟩ := hspares.way
    exact hsaves (h _ _ _ hway hreads htracks)
  · intro h passed point access hway hreads htracks
    refine Classical.byContradiction fun hsaves => ?_
    refine h access htracks ⟨point, hway.spares fun stmt hstmt hsave => hsaves ?_, hreads⟩
    exact ⟨stmt, hstmt, hsave⟩

/-- Where a way passes a save of what it comes to read, the last such save on it
    reaches the read. -/
theorem Way.save_reaches {access : Access} {point last : Point} {passed : List Inst}
    (h : body.Way point passed last) (hreads : body.ReadsBy access last)
    (hsaved : access.loc ∈ body.savedBy passed) :
    ∃ before stmt behind value block rest, passed = before ++ stmt :: behind ∧
      body.command? stmt = some (.save value access.loc) ∧
      body.Way point before ⟨block, stmt :: rest⟩ ∧ body.Live access ⟨block, rest⟩ := by
  -- by induction on the way: a later save is found first, or else it is the one here
  induction h with
  | stay point =>
      rw [savedBy_nil] at hsaved
      exact hsaved.elim
  | leave hrest hleads _ ih =>
      obtain ⟨before, stmt, behind, value, block, rest, hsplit, hsave, hway, hlive⟩ :=
        ih hreads hsaved
      exact ⟨before, stmt, behind, value, block, rest, hsplit, hsave,
        .leave hrest hleads hway, hlive⟩
  | @pass point next last stmt rest passed hrest hleads hway ih =>
      by_cases hlater : access.loc ∈ body.savedBy passed
      · obtain ⟨before, other, behind, value, block, rest', rfl, hsave, hbefore, hlive⟩ :=
          ih hreads hlater
        exact ⟨stmt :: before, other, behind, value, block, rest', rfl, hsave,
          .pass hrest hleads hbefore, hlive⟩
      · -- the statement at the point is the last one to save the location
        obtain ⟨other, hother, value, hsave⟩ := hsaved
        rcases List.mem_cons.mp hother with rfl | hother
        · obtain ⟨block, _⟩ := point
          cases hrest
          refine ⟨[], other, passed, value, block, rest, rfl, hsave, .stay _, last, ?_, hreads⟩
          have hnext : next = ⟨block, rest⟩ := by
            cases hleads with
            | fall => rfl
            | jump hcommand hlabel =>
                cases hsave.symm.trans hcommand
                cases hlabel
          rw [← hnext]
          exact hway.spares fun stmt hstmt hsaves => hlater ⟨stmt, hstmt, hsaves⟩
        · exact absurd ⟨other, hother, value, hsave⟩ hlater

/-- Control stays at statements of the body. -/
theorem Way.at (wf : WellFormed body) {point last : Point} {passed : List Inst}
    (h : body.Way point passed last) (hat : body.At point.block point.rest) :
    body.At last.block last.rest := by
  induction h with
  | stay point => exact hat
  | pass _ hleads _ ih | leave _ hleads _ ih => exact ih (wf.at_leads hat hleads)

namespace Initialized

/-- **WHAT LIVENESS COMPUTES FOR THE ENTRY IS EMPTY.** -/
theorem liveIn (h : body.Initialized) (wf : WellFormed body) :
    ∃ liveness, Liveness.ofBody body = .ok liveness ∧ liveness.liveIn ⟨0⟩ = .ok ∅ := by
  obtain ⟨graph, hgraph, hflow⟩ := wf.flowGraph_ok
  obtain ⟨liveness, hliveness, hcomputed⟩ := Liveness.compute_ok wf hflow
  obtain ⟨steps, hsolve⟩ := Liveness.solve_of_compute hliveness
  refine ⟨liveness, ?_, ?_⟩
  · rw [Liveness.ofBody, hgraph]
    exact hliveness
  · obtain ⟨live, hlive, hmem⟩ := (Liveness.exact_of_computed wf hcomputed hsolve).liveIn ⟨0⟩
      (mem_blockKeys.mpr wf.blocks_pos)
    have hnone : live = ∅ := Std.ExtTreeSet.ext_mem fun access => by
      rw [hmem]
      refine ⟨fun hread => ?_, fun hread => absurd hread Std.ExtTreeSet.not_mem_empty⟩
      exact absurd hread.2 (initialized_iff.mp h access hread.1)
    rw [hlive, hnone]

/-- **NO WEB WITHOUT DEFINITIONS IS READ**: some save reaches each read that control
    can come to, and shares a web with it. -/
theorem not_reads_defless (h : body.Initialized) (wf : WellFormed body) :
    ∃ webs, Webs.ofBody body = .ok webs ∧ ∀ web ∈ webs.webs, web.isDefless = true →
      ∀ inst ∈ web.uses, ∀ passed point, body.Way (body.startOf ⟨0⟩) passed point →
        ¬ body.ReadsBy ⟨inst, web.loc⟩ point := by
  obtain ⟨graph, hgraph, hflow⟩ := wf.flowGraph_ok
  obtain ⟨liveness, hliveness, hcomputed⟩ := Liveness.compute_ok wf hflow
  obtain ⟨webs, hwebs, hfound⟩ := Webs.compute_ok wf hcomputed
  refine ⟨webs, ?_, ?_⟩
  · rw [Webs.ofBody, Liveness.ofBody, hgraph]
    show (Liveness.compute body graph >>= _) = _
    rw [hliveness]
    exact hwebs
  · intro web hweb hdefless inst huse passed point hway hreads
    obtain ⟨index, hindex⟩ := Array.mem_iff_getElem?.mp hweb
    have hkey : webs.byUse[(⟨inst, web.loc⟩ : Access)]? = some ⟨index⟩ :=
      hfound.indexed.byUse.mpr ⟨web, hindex, rfl, huse⟩
    have htracks := (hfound.byUse hkey).2
    obtain ⟨before, stmt, -, value, block, rest, -, hsave, hbefore, hlive⟩ :=
      hway.save_reaches hreads (h _ _ _ hway hreads htracks)
    have hat := hbefore.at wf (At.start wf.blocks_pos)
    have hdest : body.trackedDest? (.save value web.loc) = some web.loc :=
      trackedDest?_eq_some.mpr ⟨rfl, htracks⟩
    obtain ⟨key, hdef, -, hshared⟩ := hfound.definition (mem_stmts_of_stmtsOf hat.mem) hsave hdest
    have hreached := hcomputed.mem_reachedBy wf hat hsave hdest hlive
    -- the web of the save has the save as a definition
    cases hkey.symm.trans (hshared inst hreached)
    obtain ⟨other, hother, hmem⟩ := hfound.indexed.byDef.mp hdef
    cases hindex.symm.trans hother
    rw [Web.isDefless, Std.ExtTreeSet.isEmpty_iff] at hdefless
    rw [hdefless] at hmem
    exact Std.ExtTreeSet.not_mem_empty hmem

end Initialized

end Body

end DecafBackend
