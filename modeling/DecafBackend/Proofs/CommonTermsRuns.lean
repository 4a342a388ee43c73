import DecafBackend.Proofs.CommonTermsRewrite
import DecafBackend.Proofs.CommonTermsSoundness

/-! # Walks along a run

    While the changed body runs, two walks go over the block: one from the
    facts that the changes come from, and one from the facts of the solution.
    Both stay sound for the contents of the locations.

    * `Rewritten` — the changed body
    * `edit_mem_iff` — the changes to a statement are those found at it
    * `Through`, `Walking` — walks that are sound at a point
    * `entered`, `walking_enter`, `walking_next` — along a run -/

namespace DecafBackend.CommonTerms

open Available (Unified Joined)

/-- A body with everything that its changed form was made from. -/
structure Rewritten (original body after : Body) (temps : Std.ExtTreeMap Inst Loc)
    (graph : FlowGraph) (solution : Solution Available) (sets : DisjointSets .loc)
    (edits : List Edit) (visits : List Visit) (copies : Inst → List Inst) : Prop where
  wf : WellFormed original
  sited : Sited original body temps
  flow : graph.Of original
  settled : ∀ {block : Block}, block ∈ graph.blocks →
    Settled graph (analysis body temps) solution block
  flowing : Worklist.Satisfies (Flowing original body temps []) solution
  found : Found original body temps graph solution (Related original body temps)
    graph.reversePostorder sets edits visits
  blocks : after.blocks.size = original.blocks.size
  locations : after.locations = body.locations
  labels : after.labels = original.labels
  stmtsOf : ∀ block, after.stmtsOf block =
    (original.stmtsOf block).flatMap fun stmt => stmt :: copies stmt
  kept : ∀ {stmt command}, stmt ∈ original.stmts → original.command? stmt = some command →
    (∀ source, Edit.reuse stmt source ∉ edits) → after.command? stmt = some command
  reused : ∀ {stmt value dest source}, stmt ∈ original.stmts →
    original.command? stmt = some (.save value dest) → Edit.reuse stmt source ∈ edits →
      ∃ load, after.command? stmt = some (.save (.load ⟨load, sets.root source⟩) dest)
  copied : ∀ {stmt value dest temp}, stmt ∈ original.stmts →
    original.command? stmt = some (.save value dest) → Edit.remember stmt temp ∈ edits →
      ∃ copy load, copies stmt = [copy] ∧
        after.command? copy = some (.save (.load ⟨load, dest⟩) (sets.root temp))
  single : ∀ {stmt}, (∀ temp, Edit.remember stmt temp ∉ edits) → copies stmt = []

/-! ## Where changes come from -/

section

variable {original body after : Body} {temps : Std.ExtTreeMap Inst Loc} {graph : FlowGraph}
  {solution : Solution Available} {sets : DisjointSets .loc} {edits : List Edit}
  {visits : List Visit} {copies : Inst → List Inst}

/-- A block is walked over once. -/
theorem visit_unique {visits : List Visit} (hnodup : (visits.map Visit.block).Nodup) {a b : Visit}
    (ha : a ∈ visits) (hb : b ∈ visits) (h : a.block = b.block) : a = b := by
  induction visits with
  | nil => cases ha
  | cons first rest ih =>
      rw [List.map_cons, List.nodup_cons] at hnodup
      have hrest : ∀ visit ∈ rest, visit.block ≠ first.block := fun visit hvisit heq =>
        hnodup.1 (heq ▸ List.mem_map.mpr ⟨visit, hvisit, rfl⟩)
      rcases List.mem_cons.mp ha with hfirst | hlater
      · rcases List.mem_cons.mp hb with hfirst' | hlater'
        · rw [hfirst, hfirst']
        · exact absurd (h.symm.trans (congrArg Visit.block hfirst)) (hrest b hlater')
      · rcases List.mem_cons.mp hb with hfirst' | hlater'
        · exact absurd (h.trans (congrArg Visit.block hfirst')) (hrest a hlater)
        · exact ih hnodup.2 hlater hlater'

/-- The edits of a walk over a whole block. -/
theorem about_visit (hsited : Sited original body temps) (wf : WellFormed original) {visit : Visit}
    (h : Visited original body temps graph solution sets visit) :
    About (body.stmtsOf visit.block) visit.walk.edits ∧
      ∀ edit ∈ visit.walk.edits, Admits body temps edit ∧
        ∃ value dest, body.command? edit.slot.1 = some (.save value dest) := by
  obtain ⟨new, hnew, habout, hadmits⟩ := edits_of_steps hsited wf (Tracked.start h.flowing)
    (fun _ hstmt => Body.mem_stmts_of_stmtsOf hstmt)
    ((hsited.wellFormed wf).stmtsOf_nodup visit.block) h.walk
  rw [List.nil_append] at hnew
  rw [hnew]
  exact ⟨habout, hadmits⟩

/-- The changes of all the walks are about the statements of their blocks, in turn. -/
theorem about_visits (hsited : Sited original body temps) (wf : WellFormed original)
    {visits : List Visit} (hnodup : (visits.map Visit.block).Nodup)
    (h : ∀ visit ∈ visits, Visited original body temps graph solution sets visit) :
    About ((visits.map Visit.block).flatMap body.stmtsOf)
      (visits.flatMap fun visit => visit.walk.edits) := by
  induction visits with
  | nil => exact About.nil _
  | cons first rest ih =>
      have hall := (hsited.wellFormed wf).flatMap_stmtsOf_nodup hnodup
      rw [List.map_cons, List.flatMap_cons, List.flatMap_cons]
      exact (about_visit hsited wf (h first List.mem_cons_self)).1.append
        (ih (List.nodup_cons.mp hnodup).2 fun visit hvisit =>
          h visit (List.mem_cons_of_mem _ hvisit)) hall

/-- Only saves are changed. -/
theorem Found.admits {related : Loc → Loc → Prop}
    (hfound : Found original body temps graph solution related graph.reversePostorder sets edits
      visits) (hsited : Sited original body temps) (wf : WellFormed original) :
    ∀ edit ∈ edits, Admits body temps edit ∧ edit.slot.1 ∈ body.stmts ∧
      ∃ value dest, body.command? edit.slot.1 = some (.save value dest) := by
  intro edit hedit
  rw [hfound.edits] at hedit
  obtain ⟨visit, hvisit, hedit⟩ := List.mem_flatMap.mp hedit
  obtain ⟨hsaves, hall⟩ := about_visit hsited wf (hfound.visited visit hvisit)
  exact ⟨(hall edit hedit).1, Body.mem_stmts_of_stmtsOf (hsaves.saves edit hedit),
    (hall edit hedit).2⟩

/-- The changes to a statement are those found at it. -/
theorem edit_mem_iff (hsited : Sited original body temps) (wf : WellFormed original)
    {related : Loc → Loc → Prop}
    (hfound : Found original body temps graph solution related graph.reversePostorder sets edits
      visits)
    {visit : Visit} (hvisit : visit ∈ visits) {passed rest : List Inst} {stmt : Inst}
    {command : Command} {walk next : Walk} {new : List Edit}
    (hsplit : body.stmtsOf visit.block = passed ++ stmt :: rest)
    (hcommand : body.command? stmt = some command)
    (hwalk : passed.foldlM (Walk.step body temps) { facts := visit.facts } = .ok walk)
    (htracked : Tracked original body temps passed walk)
    (hstep : Walk.step body temps walk stmt = .ok next)
    (hnext : next.edits = walk.edits ++ new) {edit : Edit} (hedit : edit.slot.1 = stmt) :
    edit ∈ edits ↔ edit ∈ new := by
  have wf' := hsited.wellFormed wf
  have hnodup := wf'.stmtsOf_nodup visit.block
  have hin : stmt ∈ body.stmtsOf visit.block := by rw [hsplit]; simp
  rw [hsplit] at hnodup
  obtain ⟨hfront, hback, hdisjoint⟩ := List.nodup_append.mp hnodup
  have hmemPassed : ∀ other ∈ passed, other ∈ body.stmts := fun other hother =>
    Body.mem_stmts_of_stmtsOf (hsplit ▸ List.mem_append_left _ hother)
  have hmemRest : ∀ other ∈ rest, other ∈ body.stmts := fun other hother =>
    Body.mem_stmts_of_stmtsOf
      (hsplit ▸ List.mem_append_right _ (List.mem_cons_of_mem _ hother))
  obtain ⟨early, hearly, haboutEarly, -⟩ := edits_of_steps hsited wf
    (Tracked.start (hfound.visited visit hvisit).flowing) hmemPassed hfront hwalk
  rw [List.nil_append] at hearly
  -- the walk over the whole block goes through this statement
  have hwhole := (hfound.visited visit hvisit).walk
  rw [walkBlock, hsplit] at hwhole
  obtain ⟨walk', hwalk', hwhole⟩ := Checked.foldlM_append_eq_ok hwhole
  rw [hwalk] at hwalk'
  cases hwalk'
  rw [List.foldlM_cons, hstep] at hwhole
  obtain ⟨next', hstep', -, -, htracked'⟩ :=
    htracked.step hsited wf (Body.mem_stmts_of_stmtsOf hin) hcommand
  rw [hstep] at hstep'
  cases hstep'
  obtain ⟨late, hlate, haboutLate, -⟩ :=
    edits_of_steps hsited wf htracked' hmemRest (List.nodup_cons.mp hback).2 hwhole
  rw [hfound.edits, List.mem_flatMap]
  constructor
  -- a change to this statement can only come of the walk over its own block
  · rintro ⟨other, hother, hmem⟩
    have hblock := (about_visit hsited wf (hfound.visited other hother)).1.saves edit hmem
    rw [hedit] at hblock
    have hnodupBlocks : (visits.map Visit.block).Nodup := by
      rw [hfound.blocks]
      exact graph.nodup_reversePostorder
    have hsame := visit_unique hnodupBlocks hother hvisit (wf'.block_unique hblock hin)
    subst hsame
    rw [hlate, hnext] at hmem
    rcases List.mem_append.mp hmem with hmem | hmem
    · rcases List.mem_append.mp hmem with hmem | hmem
      · have hsaved := haboutEarly.saves edit (hearly ▸ hmem)
        rw [hedit] at hsaved
        exact absurd rfl (hdisjoint stmt hsaved stmt List.mem_cons_self)
      · exact hmem
    · have hsaved := haboutLate.saves edit hmem
      rw [hedit] at hsaved
      exact absurd hsaved (List.nodup_cons.mp hback).1
  · intro hmem
    refine ⟨visit, hvisit, ?_⟩
    rw [hlate, hnext]
    exact List.mem_append_left _ (List.mem_append_right _ hmem)

end

/-! ## Points of two runs -/

/-- The original locations have the same contents. -/
structure Agree (original : Body) (store store' : Store) : Prop where
  globals : store'.globals = store.globals
  locals : ∀ loc : Loc, loc.index < original.locations.size →
    store'.locals loc = store.locals loc

/-- A walk from some facts over some statements, which is sound for the
    contents of the locations. -/
structure Through (setting : Setting) (original body : Body) (temps : Std.ExtTreeMap Inst Loc)
    (sets : DisjointSets .loc) (facts : Available) (passed : List Inst) (store : Store)
    (walk : Walk) : Prop where
  reached : passed.foldlM (Walk.step body temps) { facts } = .ok walk
  tracked : Tracked original body temps passed walk
  sound : Sound setting original body temps sets store walk

section

variable {setting : Setting} {original body : Body} {temps : Std.ExtTreeMap Inst Loc}
  {sets : DisjointSets .loc}

/-- At the start of a block both walks stand at its first statement. -/
theorem Through.start {facts : Available} {store : Store}
    (hflowing : Flowing original body temps [] facts)
    (hholding : Holding setting body sets store facts) :
    Through setting original body temps sets facts [] store { facts } where
  reached := rfl
  tracked := Tracked.start hflowing
  sound := ⟨hholding, fun _ => none, NumberTable.Valid.empty⟩

/-- Control and the walk pass a statement together. -/
theorem Through.step (hsited : Sited original body temps) (wf : WellFormed original)
    (hunified : Unified (Related original body temps) sets) {block : Block} {facts : Available}
    {passed rest : List Inst} {stmt : Inst} {command : Command} {store store' : Store}
    {walk : Walk} (h : Through setting original body temps sets facts passed store walk)
    (hsplit : body.stmtsOf block = passed ++ stmt :: rest)
    (hcommand : body.command? stmt = some command)
    (heffect : Effect setting original body temps sets stmt command store store') :
    ∃ next, Through setting original body temps sets facts (passed ++ [stmt]) store' next := by
  have hin : stmt ∈ body.stmtsOf block := by rw [hsplit]; simp
  obtain ⟨next, hstep, hmove, hstepped, htracked⟩ :=
    h.tracked.step hsited wf (Body.mem_stmts_of_stmtsOf hin) hcommand
  refine ⟨next, ?_, htracked,
    h.sound.step hsited wf hunified h.tracked hsplit hcommand hmove hstepped heffect⟩
  rw [List.foldlM_append, h.reached]
  show (Walk.step body temps walk stmt >>= _) = _
  rw [hstep]
  rfl

end

/-- Both walks over a block, up to the statements that are still to run. -/
def Walking (setting : Setting) (original body : Body) (temps : Std.ExtTreeMap Inst Loc)
    (solution : Solution Available) (sets : DisjointSets .loc) (visits : List Visit)
    (block : Block) (rest : List Inst) (store : Store) : Prop :=
  ∃ passed visit input merged plain,
    body.stmtsOf block = passed ++ rest ∧ visit ∈ visits ∧ visit.block = block ∧
    solution.inputs[block]? = some input ∧
    Through setting original body temps sets visit.facts passed store merged ∧
    Through setting original body temps sets input passed store plain

section

variable {setting : Setting} {original body after : Body} {temps : Std.ExtTreeMap Inst Loc}
  {graph : FlowGraph} {solution : Solution Available} {sets : DisjointSets .loc}
  {edits : List Edit} {visits : List Visit} {copies : Inst → List Inst}
  (h : Rewritten original body after temps graph solution sets edits visits copies)
include h

/-! ## Entering blocks -/

/-- Facts that are right on one path into a block are right in the solution. -/
theorem Rewritten.holding_input {block : Block} {store : Store} {path : Available}
    (hpath : path ∈ (analysis body temps).contributions graph solution block)
    (hholding : Holding setting body sets store path) :
    Holding setting body sets store ((analysis body temps).joinInputs graph solution block) := by
  have hless : ∀ {facts left : Available}, (∀ {e}, left.Has e → facts.Has e) →
      (∀ {e l}, left.Holds e l → facts.Holds e l) →
      -- whatever has less than a right state is right too
      Holding setting body sets store facts → Holding setting body sets store left := by
    intro facts left hhas hholds hfacts term hterm
    obtain ⟨word, heval, hholders⟩ := hfacts (hhas hterm)
    exact ⟨word, heval, fun hloc => hholders (hholds hloc)⟩
  have hmeet : ∀ {a b : Available}, a.Indexed body.locations.size →
      (a.meet b).Indexed body.locations.size ∧
      (∀ {e}, (a.meet b).Has e → a.Has e ∧ b.Has e) ∧
      ∀ {e x}, (a.meet b).Holds e x → a.Holds e x ∧ b.Holds e x :=
    fun ha => Available.meet_spec ha
  -- a join has less than each of the states that are joined, and stays in range
  let inv : Available → Prop := fun facts => facts.Indexed body.locations.size
  let right : Available → Prop := fun facts => Holding setting body sets store facts
  have hinv : ∀ facts ∈ (analysis body temps).contributions graph solution block, inv facts :=
    fun facts hfacts => (contributions_flowing h.flowing block facts hfacts).indexed
  have hjoin : ∀ a b, inv a → inv b → inv ((analysis body temps).join a b) :=
    fun a b ha _ => (hmeet ha).1
  have hleft : ∀ a b, inv a → inv b → right a → right ((analysis body temps).join a b) :=
    fun a b ha _ hfirst => hless (fun he => ((hmeet ha).2.1 he).1)
      (fun hx => ((hmeet ha).2.2 hx).1) hfirst
  have hright : ∀ a b, inv a → inv b → right b → right ((analysis body temps).join a b) :=
    fun a b ha _ hsecond => hless (fun he => ((hmeet ha).2.1 he).2)
      (fun hx => ((hmeet ha).2.2 hx).2) hsecond
  have hresult : right ((analysis body temps).joinInputs graph solution block) :=
    Analysis.joinInputs_of_mem (analysis body temps) graph hinv hjoin hleft hright hpath hholding
  intro term hterm
  exact hresult hterm

/-- Every block is visited. -/
theorem Rewritten.exists_visit {block : Block} (hlt : block.index < original.blocks.size) :
    ∃ visit ∈ visits, visit.block = block := by
  refine List.mem_map.mp ?_
  rw [h.found.blocks]
  exact FlowGraph.mem_reversePostorder (h.flow.blocks ▸ Body.mem_blockKeys.mpr hlt)

/-- Facts that are right on one path into a block are right at its start. -/
theorem Rewritten.entered {block : Block} (hlt : block.index < original.blocks.size)
    {store : Store} {path : Available}
    (hpath : path ∈ (analysis body temps).contributions graph solution block)
    (hholding : Holding setting body sets store path) :
    Walking setting original body temps solution sets visits block (original.stmtsOf block)
      store := by
  have hblock : block ∈ graph.blocks := by
    rw [h.flow.blocks]
    exact Body.mem_blockKeys.mpr hlt
  obtain ⟨visit, hvisit, rfl⟩ := h.exists_visit hlt
  have hvisited := h.found.visited visit hvisit
  obtain ⟨output, hinput, -⟩ := h.settled hblock
  refine ⟨[], visit, _, _, _, h.sited.stmtsOf_eq _, hvisit, rfl, hinput,
    Through.start hvisited.flowing ?_,
    Through.start (h.flowing.1 hinput) (h.holding_input hpath hholding)⟩
  -- a holder at the start stands for one on every path
  intro term hterm
  obtain ⟨word, heval, hholders⟩ := hholding (hvisited.joined.has hterm path hpath)
  refine ⟨word, heval, fun hloc => ?_⟩
  obtain ⟨holder, hholder, hroot⟩ := hvisited.joined.holds hloc path hpath
  rw [← hroot]
  exact hholders hholder

/-- The facts at the end of a block go to its successors. -/
theorem Rewritten.leaves {block target : Block} (hlt : block.index < original.blocks.size)
    (htarget : target ∈ graph.successors block) {input : Available} {store : Store} {walk : Walk}
    (hinput : solution.inputs[block]? = some input)
    (hthrough : Through setting original body temps sets input (body.stmtsOf block) store walk) :
    walk.facts ∈ (analysis body temps).contributions graph solution target := by
  have hblock : block ∈ graph.blocks := by
    rw [h.flow.blocks]
    exact Body.mem_blockKeys.mpr hlt
  obtain ⟨output, hinput', htransfer, houtput⟩ := h.settled hblock
  rw [hinput] at hinput'
  rw [← Option.some.inj hinput'] at htransfer
  obtain ⟨last, hlast, rfl⟩ := Checked.map_eq_ok htransfer
  have hreached : walkBlock body temps block input = .ok walk := hthrough.reached
  rw [hlast] at hreached
  cases hreached
  rw [Analysis.contributions]
  refine List.mem_append_right _ (List.mem_filterMap.mpr ⟨block, ?_, houtput⟩)
  exact List.mem_filter.mpr ⟨hblock, List.contains_iff_mem.mpr htarget⟩

/-- Control goes from the end of a block to a successor. -/
theorem Rewritten.walking_enter {block target : Block} {store : Store}
    (hwalking : Walking setting original body temps solution sets visits block [] store)
    (hlt : block.index < original.blocks.size) (htarget : target ∈ graph.successors block)
    (hlt' : target.index < original.blocks.size) :
    Walking setting original body temps solution sets visits target (original.stmtsOf target)
      store := by
  obtain ⟨passed, visit, input, merged, plain, hsplit, -, -, hinput, -, hplain⟩ := hwalking
  rw [List.append_nil] at hsplit
  rw [← hsplit] at hplain
  exact h.entered hlt' (h.leaves hlt htarget hinput hplain) hplain.sound.facts

/-- The start of a run. -/
theorem Rewritten.walking_start (hblocks : 0 < original.blocks.size) (store : Store) :
    Walking setting original body temps solution sets visits ⟨0⟩ (original.stmtsOf ⟨0⟩) store := by
  have hboundary : (analysis body temps).isBoundary graph ⟨0⟩ = true :=
    beq_iff_eq.mpr (h.flow.entry hblocks)
  have hpath : ({} : Available) ∈ (analysis body temps).contributions graph solution ⟨0⟩ := by
    rw [Analysis.contributions, if_pos hboundary]
    exact List.mem_append_left _ List.mem_cons_self
  exact h.entered hblocks hpath fun hterm => absurd hterm Available.not_has_empty

/-- Control goes on behind a statement. -/
theorem Rewritten.walking_next {block : Block} {stmt : Inst} {rest : List Inst}
    {command : Command} {store store' : Store}
    (hwalking : Walking setting original body temps solution sets visits block (stmt :: rest) store)
    (hcommand : original.command? stmt = some command)
    (heffect : Effect setting original body temps sets stmt command store store') :
    Walking setting original body temps solution sets visits block rest store' := by
  obtain ⟨passed, visit, input, merged, plain, hsplit, hvisit, hblock, hinput, hmerged, hplain⟩ :=
    hwalking
  have hcommand' := (h.sited.command?_eq stmt).trans hcommand
  obtain ⟨merged', hmerged'⟩ :=
    hmerged.step h.sited h.wf h.found.unified hsplit hcommand' heffect
  obtain ⟨plain', hplain'⟩ := hplain.step h.sited h.wf h.found.unified hsplit hcommand' heffect
  refine ⟨passed ++ [stmt], visit, input, merged', plain', ?_, hvisit, hblock, hinput, hmerged',
    hplain'⟩
  rw [hsplit, List.append_assoc]
  rfl

/-! ## Changes at a point -/

/-- **A SOURCE HOLDS WHAT THE SAVE COMPUTES**. -/
theorem Rewritten.reuse_spec {block : Block} {stmt : Inst} {rest : List Inst}
    {command : Command} {source : Loc} {store : Store}
    (hwalking : Walking setting original body temps solution sets visits block (stmt :: rest) store)
    (hcommand : original.command? stmt = some command) (hedit : Edit.reuse stmt source ∈ edits) :
    ∃ value dest term word, command = .save value dest ∧ value.term? = some term ∧
      term.eval setting.arithmetic (body.read setting store) = some word ∧
      body.read setting store (sets.root source) = some word := by
  obtain ⟨passed, visit, input, merged, plain, hsplit, hvisit, rfl, -, hmerged, -⟩ := hwalking
  have hcommand' := (h.sited.command?_eq stmt).trans hcommand
  have hin : stmt ∈ body.stmtsOf visit.block := by
    rw [hsplit]
    exact List.mem_append_right _ List.mem_cons_self
  have hstmt := Body.mem_stmts_of_stmtsOf hin
  -- of the walk over the whole block, what is new here belongs to this statement
  obtain ⟨next, hstep, hmove, -, -⟩ := hmerged.tracked.step h.sited h.wf hstmt hcommand'
  have hmem : ∀ {new}, next.edits = merged.edits ++ new → Edit.reuse stmt source ∈ new :=
    fun hnext => (edit_mem_iff h.sited h.wf h.found hvisit hsplit hcommand' hmerged.reached
      hmerged.tracked hstep hnext rfl).mp hedit
  cases hmove with
  | idle hdest hcalled =>
      have hnew := hmem (by rw [hcalled.edits, List.append_nil])
      cases hnew
  | overwrite hsave hterm hcalled =>
      have hnew := hmem (show _ = merged.edits ++ [] by
        rw [List.append_nil]
        exact hcalled.edits)
      cases hnew
  | @term value dest term found hsave hterm hsource =>
      have hnew := hmem (saved_edits merged stmt term dest found)
      have hfound : found = some source := by
        rcases List.mem_append.mp hnew with hnew | hnew
        · obtain ⟨holder, hholder, heq⟩ := Option.map_eq_some_iff.mp (Option.mem_toList.mp hnew)
          cases heq
          exact hholder
        · split at hnew
          · cases hnew
          · obtain ⟨temp, -, heq⟩ := Option.map_eq_some_iff.mp (Option.mem_toList.mp hnew)
            cases heq
      refine ⟨value, dest, term, ?_⟩
      rcases (hsource source hfound).2 with hholder | hnumber
      · -- the source is known to hold the term
        have hholds := Available.mem_holdersOf.mp hholder
        obtain ⟨word, heval, hholders⟩ := hmerged.sound.facts hholds.has
        exact ⟨word, hsave, hterm, heval, hholders hholds⟩
      · -- the source holds the number of the term
        have hlow := h.sited.low h.wf hstmt hcommand'
        have hoperands : ∀ loc ∈ term.operands, loc.index < original.locations.size := by
          intro loc hloc
          obtain ⟨access, haccess, rfl⟩ := Value.mem_operands_term hterm hloc
          exact hlow.reads access (by rw [hsave]; exact haccess)
        obtain ⟨numbers, hvalid⟩ := hmerged.sound.table
        obtain ⟨numbers', hnumbered⟩ := NumberTable.ofTerm_spec hvalid hoperands
        obtain ⟨-, word, hword, hkeeps⟩ := hnumbered.valid.temps hnumber
        exact ⟨word, hsave, hterm, hnumbered.word.symm.trans hword, hkeeps.1⟩

/-- The saves that leave their value in a temporary. -/
theorem Rewritten.remember_iff {block : Block} {stmt : Inst} {rest : List Inst}
    {command : Command} {temp : Loc} {store : Store}
    (hwalking : Walking setting original body temps solution sets visits block (stmt :: rest) store)
    (hcommand : original.command? stmt = some command) :
    Edit.remember stmt temp ∈ edits ↔ ∃ value dest term, command = .save value dest ∧
      value.term? = some term ∧ dest ∉ term.operands ∧ temps[stmt]? = some temp := by
  obtain ⟨passed, visit, input, merged, plain, hsplit, hvisit, rfl, -, hmerged, -⟩ := hwalking
  have hcommand' := (h.sited.command?_eq stmt).trans hcommand
  have hin : stmt ∈ body.stmtsOf visit.block := by
    rw [hsplit]
    exact List.mem_append_right _ List.mem_cons_self
  have hstmt := Body.mem_stmts_of_stmtsOf hin
  obtain ⟨next, hstep, hmove, -, -⟩ := hmerged.tracked.step h.sited h.wf hstmt hcommand'
  -- what is to be shown of all the changes is to be shown of those made here
  have hiff : ∀ {new}, next.edits = merged.edits ++ new →
      (Edit.remember stmt temp ∈ edits ↔ Edit.remember stmt temp ∈ new) :=
    fun hnext => edit_mem_iff h.sited h.wf h.found hvisit hsplit hcommand' hmerged.reached
      hmerged.tracked hstep hnext rfl
  cases hmove with
  | idle hdest hcalled =>
      rw [hiff (by rw [hcalled.edits, List.append_nil])]
      constructor
      · nofun
      · rintro ⟨value, dest, term, rfl, -⟩
        cases hdest
  | overwrite hsave hterm hcalled =>
      rw [hiff (show _ = merged.edits ++ [] by
        rw [List.append_nil]
        exact hcalled.edits)]
      constructor
      · nofun
      · rintro ⟨value, dest, term, heq, hterm', -⟩
        rw [hsave] at heq
        cases heq
        rw [hterm] at hterm'
        cases hterm'
  | @term value dest term found hsave hterm hsource =>
      rw [hiff (saved_edits merged stmt term dest found), newEdits, List.mem_append]
      constructor
      · rintro (hnew | hnew)
        · obtain ⟨holder, -, heq⟩ := Option.map_eq_some_iff.mp (Option.mem_toList.mp hnew)
          cases heq
        · split at hnew
          · cases hnew
          · next hmentions =>
              obtain ⟨other, hother, heq⟩ := Option.map_eq_some_iff.mp (Option.mem_toList.mp hnew)
              cases heq
              exact ⟨value, dest, term, hsave, hterm,
                fun hmem => hmentions (mentions_iff.mpr hmem), hother⟩
      · rintro ⟨value', dest', term', heq, hterm', hnot, htemp⟩
        rw [hsave] at heq
        cases heq
        rw [hterm] at hterm'
        cases hterm'
        right
        rw [if_neg fun hmentions => hnot (mentions_iff.mp hmentions), htemp]
        exact List.mem_cons_self

end

end DecafBackend.CommonTerms
