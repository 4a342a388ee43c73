import DecafBackend.Proofs.FitBodies
import DecafBackend.Proofs.Passes

/-! # Passes keep bodies fit for emission

    Passes change statements one by one, delete some, and put copies behind some.
    They never add a label or an argument, so a body stays fit for emission however
    many passes are run.

    * `Yields.mapLocs`, `Yields.mapLoads`, `Yields.load` — what comes of commands
    * `pieces_propagated`, `pieces_sweep`, `pieces_renamed` — what comes of bodies
    * `pieces_run` — what comes of a body by one pass
    * `Fit.runAll` — all passes keep a body fit -/

namespace DecafBackend.Body

variable {body after : Body}

/-! ## What comes of commands -/

/-- Other locations leave a statement what it is. -/
theorem Yields.mapLocs (f : Loc → Loc) (stmt : Inst) (command : Command) :
    Yields stmt command stmt (command.mapLocs f) := by
  cases command with
  | save value dest =>
      refine ⟨fun _ h => (by cases h), ?_, ?_, fun inst index new h => ?_, fun _ h => (by cases h),
        id⟩
      · cases value <;> exact Or.inr rfl
      · cases value <;> exact Or.inr rfl
      · cases value with
        | param => cases h; exact ⟨dest, rfl⟩
        | load | unary | binary | call => cases h
  | label place => exact Yields.refl stmt _
  | use loc =>
      exact ⟨fun _ h => (by cases h), Or.inl rfl, Or.inl rfl, fun _ _ _ h => (by cases h),
        fun _ _ => ⟨loc, rfl⟩, id⟩
  | call =>
      exact ⟨fun _ h => (by cases h), Or.inr rfl, Or.inr rfl, fun _ _ _ h => (by cases h),
        fun _ h => (by cases h), id⟩
  | jump | branch | ret | exit =>
      exact ⟨fun _ h => (by cases h), Or.inl rfl, Or.inl rfl, fun _ _ _ h => (by cases h),
        fun _ h => (by cases h), id⟩

/-- Other loads leave a statement what it is. -/
theorem Yields.mapLoads (f : Loc → Loc) (stmt : Inst) (command : Command) :
    Yields stmt command stmt (command.mapLoads f) := by
  cases command with
  | save value dest =>
      refine ⟨fun _ h => (by cases h), ?_, ?_, fun inst index new h => ?_, fun _ h => (by cases h),
        id⟩
      · cases value <;> exact Or.inr rfl
      · cases value <;> exact Or.inr rfl
      · cases value with
        | param => cases h; exact ⟨dest, rfl⟩
        | load | unary | binary | call => cases h
  | label | call | use | jump | exit => exact Yields.refl stmt _
  | branch | ret =>
      exact ⟨fun _ h => (by cases h), Or.inl rfl, Or.inl rfl, fun _ _ _ h => (by cases h),
        fun _ h => (by cases h), id⟩

/-- Anything may become a copy. -/
theorem Yields.load (stmt : Inst) (command : Command) (piece : Inst) (src : Access) (dest : Loc) :
    Yields stmt command piece (.save (.load src) dest) :=
  ⟨fun _ h => (by cases h), Or.inl rfl, Or.inl rfl, fun _ _ _ h => (by cases h),
    fun _ h => (by cases h), fun h => (by cases h)⟩

/-! ## What comes of bodies -/

/-- Copy propagation changes the loads of each statement, one for one. -/
theorem pieces_propagated {graph : FlowGraph} {solution : Solution Copies} (wf : WellFormed body)
    (hpropagated : Copies.Propagated body after graph solution) :
    Pieces body after fun stmt => [stmt] := by
  have hcommand : ∀ {stmt command}, stmt ∈ body.stmts → body.command? stmt = some command →
      ∃ f, after.command? stmt = some (command.mapLoads f) := by
    intro stmt command hstmt hcommand
    obtain ⟨block, rest, copies, hahead, -⟩ := hpropagated.ahead_of_mem wf hstmt
    exact ⟨copies.through, hpropagated.commands hahead hcommand⟩
  constructor
  case wellFormed => exact hpropagated.wellFormed wf
  case enlarges =>
    obtain ⟨records, hsame⟩ := hpropagated.same
    rw [hsame]
    exact Enlarges.of_eq rfl rfl rfl
  case labels => exact hpropagated.labels
  case size => rw [hpropagated.blocks]
  case stmtsOf =>
    exact fun block => (hpropagated.stmtsOf block).trans (List.flatMap_singleton' _).symm
  case label =>
    intro stmt label hstmt hlabel
    obtain ⟨f, hafter⟩ := hcommand hstmt hlabel
    exact ⟨⟨[], rfl⟩, hafter⟩
  case ender =>
    intro stmt command hstmt hold hends
    obtain ⟨f, hafter⟩ := hcommand hstmt hold
    exact ⟨⟨[], rfl⟩, _, hafter, command.endsBlock_mapLoads.trans hends,
      command.target?_mapLoads, command.isTerminator_mapLoads⟩
  case yields =>
    intro stmt command piece new hstmt hold hpiece hnew
    obtain rfl := List.mem_singleton.mp hpiece
    obtain ⟨f, hafter⟩ := hcommand hstmt hold
    cases hafter.symm.trans hnew
    exact Yields.mapLoads f piece command

/-- Of each statement, itself is left or its call. -/
theorem pieces_sweep (wf : WellFormed body) (dead : List Inst) :
    Pieces body (DeadSaves.sweep body dead) (DeadSaves.leftOf body dead) where
  wellFormed := DeadSaves.sweep_wellFormed wf
  enlarges := Enlarges.of_eq rfl rfl rfl
  labels := rfl
  size := Body.size_mapStmts _
  stmtsOf := DeadSaves.stmtsOf_sweep
  label {stmt label} hstmt hlabel := by
    refine ⟨⟨[], ?_⟩, (DeadSaves.command?_sweep stmt).trans hlabel⟩
    rcases DeadSaves.leftOf_cases body dead stmt with hkept | ⟨value, dest, hsave, -⟩
    · exact hkept
    · cases hlabel.symm.trans hsave
  ender {stmt command} hstmt hcommand hends :=
    ⟨⟨[], DeadSaves.leftOf_ender hcommand hends⟩, command,
      (DeadSaves.command?_sweep stmt).trans hcommand, hends, rfl, rfl⟩
  yields {stmt command piece new} hstmt hcommand hpiece hnew := by
    rw [DeadSaves.command?_sweep] at hnew
    rcases DeadSaves.leftOf_cases body dead stmt with hkept | ⟨value, dest, hsave, -, hcall⟩
    · rw [hkept, List.mem_singleton] at hpiece
      subst hpiece
      cases hcommand.symm.trans hnew
      exact Yields.refl piece command
    · -- what is left of a save is its call
      cases hcommand.symm.trans hsave
      rw [hcall, Option.mem_toList] at hpiece
      cases value with
      | call made target args isExternal saved =>
          cases hpiece
          have hrecord := (Body.command?_eq_some.mp hsave).2
          cases (Body.command?_eq_some.mpr hrecord :
            body.command? piece = some (.call target args isExternal saved)).symm.trans hnew
          exact ⟨fun _ h => (by cases h), Or.inr rfl, Or.inr rfl, fun _ _ _ h => (by cases h),
            fun _ h => (by cases h), fun h => (by cases h)⟩
      | load | param | unary | binary => cases hpiece

/-- The temporaries of sites are new locations behind the old ones. -/
theorem enlarges_sited {sited : Body} {temps : Std.ExtTreeMap Inst Loc}
    (h : CommonTerms.Sited body sited temps) : Enlarges body sited where
  name := by rw [h.same]
  params := by rw [h.same]
  old {i location} hlocation := by
    rw [h.old (Array.getElem?_eq_some_iff.mp hlocation).1]
    exact hlocation
  new {i location} hlocation := by
    by_cases hlt : i < body.locations.size
    · exact Or.inl (h.old hlt ▸ hlocation)
    · have hsize := (Array.getElem?_eq_some_iff.mp hlocation).1
      rw [h.new (Nat.le_of_not_lt hlt) hsize] at hlocation
      exact Or.inr (Option.some.inj hlocation).symm

open CommonTerms in
/-- Saves are changed to loads or have copies behind them, and then locations are
    renamed. -/
theorem pieces_renamed {sited changed : Body} {temps : Std.ExtTreeMap Inst Loc} {edits : List Edit}
    {copies : Inst → List Inst} {root : Loc → Loc} (wf : WellFormed after)
    (hsited : Sited body sited temps) (hshape : Shape sited changed edits copies)
    (hsaves : ∀ edit ∈ edits, ∃ value dest, sited.command? edit.slot.1 = some (.save value dest))
    (hrenamed : Renamed root changed after) :
    Pieces body after fun stmt => stmt :: copies stmt := by
  have hold : ∀ {stmt command}, stmt ∈ body.stmts → body.command? stmt = some command →
      stmt ∈ sited.stmts ∧ sited.command? stmt = some command := fun hstmt hcommand =>
    ⟨hsited.stmts_eq ▸ hstmt, (hsited.command?_eq _).trans hcommand⟩
  -- what is no save is renamed only
  have hkept : ∀ {stmt command}, stmt ∈ body.stmts → body.command? stmt = some command →
      (∀ value dest, command ≠ .save value dest) →
        after.command? stmt = some (command.mapLocs root) := by
    intro stmt command hstmt hcommand hno
    obtain ⟨hstmt', hcommand'⟩ := hold hstmt hcommand
    refine hrenamed.commands (hshape.mem_stmts hstmt') ?_
    refine hshape.kept hstmt' hcommand' fun source hedit => ?_
    obtain ⟨value, dest, hsave⟩ := hsaves _ hedit
    exact hno value dest (Option.some.inj (hcommand'.symm.trans hsave))
  constructor
  case wellFormed => exact wf
  case enlarges =>
    refine (enlarges_sited hsited).trans (Enlarges.of_eq ?_ ?_ ?_) <;>
      rw [hrenamed.same, hshape.same]
  case labels => exact (hrenamed.labels.trans hshape.labels).trans hsited.labels
  case size => rw [hrenamed.blocks, hshape.blocks, hsited.blocks]
  case stmtsOf =>
    intro block
    rw [Body.stmtsOf_congr hrenamed.blocks, ← hsited.stmtsOf_eq]
    exact hshape.stmtsOf block
  case label =>
    intro stmt label hstmt hlabel
    exact ⟨⟨copies stmt, rfl⟩, hkept hstmt hlabel fun _ _ h => (by cases h)⟩
  case ender =>
    intro stmt command hstmt hcommand hends
    refine ⟨⟨copies stmt, rfl⟩, _, hkept hstmt hcommand fun _ _ h => ?_,
      command.endsBlock_mapLocs.trans hends, command.target?_mapLocs, command.isTerminator_mapLocs⟩
    rw [h] at hends
    cases hends
  case yields =>
    intro stmt command piece new hstmt hcommand hpiece hnew
    obtain ⟨hstmt', hcommand'⟩ := hold hstmt hcommand
    rcases List.mem_cons.mp hpiece with rfl | hpiece
    · have hstays := hshape.mem_stmts hstmt'
      by_cases hreused : ∃ source, Edit.reuse piece source ∈ edits
      · obtain ⟨source, hedit⟩ := hreused
        obtain ⟨value, dest, hsave⟩ := hsaves _ hedit
        obtain ⟨load, hload⟩ := hshape.reused hstmt' hsave hedit
        cases (hrenamed.commands hstays hload).symm.trans hnew
        exact Yields.load piece command piece _ _
      · have hsame := hshape.kept hstmt' hcommand' fun source hedit => hreused ⟨source, hedit⟩
        cases (hrenamed.commands hstays hsame).symm.trans hnew
        exact Yields.mapLocs root piece command
    · -- a copy is of something remembered
      have hremembered : ∃ temp, Edit.remember stmt temp ∈ edits := by
        refine Classical.byContradiction fun hnone => ?_
        rw [hshape.single fun temp hedit => hnone ⟨temp, hedit⟩] at hpiece
        cases hpiece
      obtain ⟨temp, hedit⟩ := hremembered
      obtain ⟨value, dest, hsave⟩ := hsaves _ hedit
      obtain ⟨copy, load, hcopies, hcopy⟩ := hshape.copied hstmt' hsave hedit
      rw [hcopies, List.mem_singleton] at hpiece
      subst hpiece
      have hmem := hshape.copy_mem_stmts hstmt' (hcopies ▸ List.mem_cons_self)
      cases (hrenamed.commands hmem hcopy).symm.trans hnew
      exact Yields.load stmt command piece _ _

/-! ## Passes -/

/-- Rounds of deletions leave pieces of the statements. -/
theorem pieces_deleteWithin {graph : FlowGraph} {rounds deleted count : Nat} (wf : WellFormed body)
    (hflow : graph.Of body)
    (hdelete : DeadSaves.deleteWithin graph rounds deleted body = .ok (count, after)) :
    ∃ pieces, Pieces body after pieces ∧ after.bindings = body.bindings := by
  induction rounds generalizing body deleted with
  | zero => cases hdelete
  | succ rounds ih =>
      rcases DeadSaves.deleteWithin_cases wf hflow hdelete with ⟨-, rfl, -⟩ | ⟨dead, -, -, hdelete⟩
      · exact ⟨_, Pieces.refl wf, rfl⟩
      · obtain ⟨pieces, hpieces, hbindings⟩ := ih (DeadSaves.sweep_wellFormed wf)
          (DeadSaves.sweep_flow wf hflow) hdelete
        exact ⟨_, (pieces_sweep wf dead).trans hpieces, hbindings⟩

/-- **ONE OPTIMIZATION** changes a body statement by statement, and gives no
    registers. -/
theorem pieces_run {steps : Nat} {pass : Pass} {changed : Bool} (wf : WellFormed body)
    (hpass : Pass.ofName? pass.name = some pass)
    (hrun : pass.run steps body = .ok (changed, after)) :
    ∃ pieces, Pieces body after pieces ∧ after.bindings = body.bindings := by
  -- each pass has its own pieces: other loads, calls left of saves, copies behind saves
  cases pass with
  | copies =>
      obtain ⟨graph, solution, hpropagated⟩ := Pass.copies_propagated wf hrun
      refine ⟨_, pieces_propagated wf hpropagated, ?_⟩
      obtain ⟨records, rfl⟩ := hpropagated.same
      rfl
  | deadSaves =>
      obtain ⟨⟨count, next⟩, hresult, hrun⟩ := Checked.bind_eq_ok hrun
      cases hrun
      obtain ⟨graph, hgraph, hflow⟩ := wf.flowGraph_ok
      rw [eliminateDeadSaves, hgraph] at hresult
      exact pieces_deleteWithin wf hflow hresult
  | commonTerms =>
      obtain ⟨count, graph, temps, sited, solution, hresult, hgraph, htemps, hsolve⟩ :=
        Pass.commonTerms_solved hrun
      obtain ⟨_, _, htemps', hsited⟩ := CommonTerms.siteTemps_ok wf
      cases htemps.symm.trans htemps'
      have hrenamed := CommonTerms.eliminateCommonTerms_renamed wf CommonTerms.relates_isTemp
        hgraph htemps hsolve
      rw [hresult] at hrenamed
      obtain ⟨wf', sets, edits, visits, copies, changed, hfound, hshape, hrenamed⟩ := hrenamed
      refine ⟨_, pieces_renamed wf' hsited hshape
        (fun edit hedit => (hfound.admits hsited wf edit hedit).2.2) hrenamed, ?_⟩
      rw [hrenamed.bindings, hshape.same]
      show sited.bindings = _
      rw [hsited.same]
  | registers palette => cases hpass

/-- **ALL PASSES** keep a body fit. -/
theorem Fit.runAll {steps : Nat} {passes : List Pass} {changed : Bool} (h : body.Fit)
    (hpasses : ∀ pass ∈ passes, Pass.ofName? pass.name = some pass)
    (hrun : Pass.runAll steps passes body = .ok (changed, after)) : after.Fit := by
  rw [Pass.runAll_eq] at hrun
  refine Checked.foldlM_invariant (fun state : Bool × Body => state.2.Fit) hrun h ?_
  rintro state pass state' hmem hfit hnext
  obtain ⟨⟨this, next⟩, hthis, hstate⟩ := Checked.bind_eq_ok hnext
  cases hstate
  obtain ⟨pieces, hpieces, hbindings⟩ := pieces_run hfit.wellFormed (hpasses pass hmem) hthis
  exact hfit.of_pieces hpieces (hbindings.trans hfit.unbound)

end DecafBackend.Body
