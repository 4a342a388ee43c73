import DecafBackend.Lowering
import DecafBackend.Optimize.Pass
import DecafBackend.Proofs.CommonTerms
import DecafBackend.Proofs.Copies
import DecafBackend.Proofs.DeadSaves

/-! # Passes in any order

    The optimizations keep bodies well-formed and keep the behaviour of runs
    that do not fail, so they can be run one after the other in any order.  The
    elimination of common subexpressions is for bodies without temporaries, so
    it can be run once only: a second time it may unify temporaries of the
    first time that still differ.

    * `Kept` — what a pass keeps
    * `foldlM_kept`, `runAll_same_behaviour` — one pass, and several passes
    * `resummed_twice_differs` — common subexpressions eliminated twice -/

namespace DecafBackend

namespace Pass

/-! ## What passes keep -/

/-- What became of a body is well-formed and behaves like it, as long as it does
    not fail. -/
structure Kept (body after : Body) : Prop where
  wellFormed : WellFormed after
  separates : ∀ {setting : Setting}, setting.Separates body → setting.Separates after
  same : ∀ {setting : Setting} {store : Store}, setting.Separates body →
    (body.behaviour setting store).Unfailing →
    Behaviour.Same (body.behaviour setting store) (after.behaviour setting store)

theorem Kept.refl {body : Body} (wf : WellFormed body) : Kept body body :=
  ⟨wf, fun h => h, fun _ _ => Behaviour.Same.refl _⟩

/-- What is kept by two passes is kept by both together. -/
theorem Kept.trans {a b c : Body} (h₁ : Kept a b) (h₂ : Kept b c) : Kept a c where
  wellFormed := h₂.wellFormed
  separates hfields := h₂.separates (h₁.separates hfields)
  same hfields hsafe := by
    have hfirst := h₁.same hfields hsafe
    exact hfirst.trans (h₂.same (h₁.separates hfields) (hsafe.of_same hfirst))

section

variable {steps : Nat} {body after : Body} {changed : Bool} (wf : WellFormed body)
include wf

/-- Propagating copies redirects loads, by the solution of its analysis. -/
theorem copies_propagated (h : run steps copies body = .ok (changed, after)) :
    ∃ graph solution, Copies.Propagated body after graph solution := by
  obtain ⟨⟨count, next⟩, hresult, h⟩ := Checked.bind_eq_ok h
  cases h
  have hsolves : Copies.Solves steps body := by
    rw [propagateCopies] at hresult
    obtain ⟨graph, hgraph, hresult⟩ := Checked.bind_eq_ok hresult
    obtain ⟨solution, hsolve, -⟩ := Checked.bind_eq_ok hresult
    exact ⟨graph, solution, hgraph, hsolve⟩
  obtain ⟨count', after', graph, solution, hresult', hpropagated⟩ :=
    Copies.propagateCopies_propagated wf hsolves
  cases hresult.symm.trans hresult'
  exact ⟨graph, solution, hpropagated⟩

/-- Propagating copies keeps the behaviour, and every location. -/
theorem copies_kept (h : run steps copies body = .ok (changed, after)) :
    Kept body after ∧ after.locations = body.locations := by
  obtain ⟨graph, solution, hpropagated⟩ := copies_propagated wf h
  refine ⟨⟨hpropagated.wellFormed wf, ?_, fun {setting store} hfields _ => ?_⟩,
    hpropagated.locations⟩
  · intro setting hfields a b i j
    rw [hpropagated.locations]
    exact hfields
  · have hsame : after.behaviour setting store = body.behaviour setting store := by
      funext n
      simp only [Body.behaviour, System.behaviour, hpropagated.run_eq wf hfields store]
      rfl
    rw [hsame]
    exact Behaviour.Same.refl _

/-- Eliminating dead saves keeps the behaviour, and every location. -/
theorem deadSaves_kept (h : run steps deadSaves body = .ok (changed, after)) :
    Kept body after ∧ after.locations = body.locations := by
  obtain ⟨⟨count, next⟩, hresult, h⟩ := Checked.bind_eq_ok h
  cases h
  have hswept := eliminateDeadSaves_swept wf hresult
  refine ⟨⟨hswept.wellFormed, ?_, fun _ hsafe => hswept.same hsafe⟩, hswept.locations⟩
  intro setting hfields a b i j
  rw [hswept.locations]
  exact hfields

omit wf in
/-- Eliminating common subexpressions solves its analysis. -/
theorem commonTerms_solved (h : run steps commonTerms body = .ok (changed, after)) :
    ∃ count graph temps sited solution, eliminateCommonTerms steps body = .ok (count, after) ∧
      FlowGraph.ofBody body = .ok graph ∧ CommonTerms.siteTemps body = .ok (temps, sited) ∧
      solve steps graph (CommonTerms.analysis sited temps) = .ok solution := by
  obtain ⟨⟨count, next⟩, hresult, h⟩ := Checked.bind_eq_ok h
  cases h
  have hparts := hresult
  rw [eliminateCommonTerms] at hparts
  obtain ⟨graph, hgraph, hparts⟩ := Checked.bind_eq_ok hparts
  obtain ⟨⟨temps, sited⟩, htemps, hparts⟩ := Checked.bind_eq_ok hparts
  obtain ⟨solution, hsolve, -⟩ := Checked.bind_eq_ok hparts
  exact ⟨count, graph, temps, sited, solution, hresult, hgraph, htemps, hsolve⟩

/-- Eliminating common subexpressions keeps the behaviour of a body without temporaries. -/
theorem commonTerms_kept (hno : body.HasNoTemp)
    (h : run steps commonTerms body = .ok (changed, after)) : Kept body after := by
  obtain ⟨count, graph, temps, sited, solution, hresult, hgraph, htemps, hsolve⟩ :=
    commonTerms_solved h
  have hrewritten := CommonTerms.eliminateCommonTerms_rewritten wf hno hgraph htemps hsolve
  rw [hresult] at hrewritten
  obtain ⟨wf', sets, edits, visits, copies, hrewritten⟩ := hrewritten
  refine ⟨wf', fun {setting} hfields => ?_, fun {setting store} hfields _ => ?_⟩
  · have hsited : setting.Separates sited := hrewritten.sited.separates hfields
    intro a b i j
    rw [hrewritten.locations]
    exact hsited
  · have hfollows := CommonTerms.eliminateCommonTerms_follows wf hno
      ⟨graph, temps, sited, solution, hgraph, htemps, hsolve⟩ hfields store
    rw [hresult] at hfollows
    exact hfollows.2.1

end

/-! ## Several passes -/

/-- One pass more. -/
def runNext (steps : Nat) (state : Bool × Body) (pass : Pass) : Checked (Bool × Body) := do
  let (this, body) ← pass.run steps state.2
  return (state.1 || this, body)

theorem runAll_eq (steps : Nat) (passes : List Pass) (body : Body) :
    runAll steps passes body = passes.foldlM (runNext steps) (false, body) := rfl

/-- What one pass keeps, several passes keep.  Common subexpressions may be
    eliminated once, before there are temporaries. -/
theorem foldlM_kept {steps : Nat} {passes : List Pass} {body : Body} {start : Bool}
    {result : Bool × Body} (wf : WellFormed body)
    (hpasses : ∀ pass ∈ passes, ofName? pass.name = some pass)
    (honce : passes.count commonTerms ≤ 1) (hno : commonTerms ∈ passes → body.HasNoTemp)
    (hrun : passes.foldlM (runNext steps) (start, body) = .ok result) : Kept body result.2 := by
  -- by induction on the passes; a body has temporaries once the terms are eliminated
  induction passes generalizing body start with
  | nil =>
      cases hrun
      exact Kept.refl wf
  | cons pass rest ih =>
      rw [List.foldlM_cons] at hrun
      obtain ⟨state, hnext, hlater⟩ := Checked.bind_eq_ok hrun
      obtain ⟨⟨this, after⟩, hthis, hstate⟩ := Checked.bind_eq_ok hnext
      cases hstate
      have hrest : ∀ other ∈ rest, ofName? other.name = some other :=
        fun other hother => hpasses other (List.mem_cons_of_mem _ hother)
      -- a pass that keeps the locations adds no temporaries
      have hplain : pass ≠ commonTerms → Kept body after ∧ after.locations = body.locations →
          Kept body result.2 := by
        rintro hne ⟨hkept, hlocations⟩
        rw [List.count_cons_of_ne hne] at honce
        refine hkept.trans (ih hkept.wellFormed hrest honce (fun hmem => ?_) hlater)
        rw [Body.HasNoTemp, hlocations]
        exact hno (List.mem_cons_of_mem _ hmem)
      cases pass with
      | copies => exact hplain (fun h => by cases h) (copies_kept wf hthis)
      | deadSaves => exact hplain (fun h => by cases h) (deadSaves_kept wf hthis)
      | commonTerms =>
          have hkept := commonTerms_kept wf (hno List.mem_cons_self) hthis
          rw [List.count_cons_self] at honce
          have hnone : rest.count commonTerms = 0 := by omega
          refine hkept.trans (ih hkept.wellFormed hrest (by omega) (fun hmem => ?_) hlater)
          exact absurd hmem (List.count_eq_zero.mp hnone)
      | registers palette => cases hpasses _ List.mem_cons_self

/-- **PASSES RUN IN ANY ORDER**: optimizations, with at most one elimination of
    common subexpressions among them, keep the behaviour of every run that does
    not fail. -/
theorem runAll_same_behaviour {steps : Nat} {passes : List Pass} {body after : Body}
    {changed : Bool} (wf : WellFormed body) (hno : body.HasNoTemp)
    (hpasses : ∀ pass ∈ passes, ofName? pass.name = some pass)
    (honce : passes.count commonTerms ≤ 1) (hrun : runAll steps passes body = .ok (changed, after))
    {setting : Setting} (hfields : setting.Separates body) {store : Store}
    (hsafe : (body.behaviour setting store).Unfailing) :
    WellFormed after ∧
      Behaviour.Same (body.behaviour setting store) (after.behaviour setting store) := by
  have hkept : Kept body after := foldlM_kept wf hpasses honce (fun _ => hno) hrun
  exact ⟨hkept.wellFormed, hkept.same hfields hsafe⟩

open Source in
/-- A method that computes a sum, may change what holds it, and computes it again. -/
def resumming : Method where
  name := "f"
  params := ["a", "b", "q"]
  returnsValue := true
  body :=
    let apply (op : BinaryOp) : Expr := .binary (.strict op) (.var "a") (.var "b")
    .mk [] [.assign "q" .assign (apply .add),
      .cond (.var "b") (.mk [] [.assign "q" .assign (apply .sub)]) none,
      .ret (some (apply .add))]

/-- What the method is lowered to. -/
def resummed : Body := (Lowering.lowerMethod {} resumming).1

/-- A setting in which the arguments are three and two, and nothing is called. -/
def smallSetting : Setting :=
  { CommonTerms.quietSetting with args := fun index => if index = 0 then 3 else 2 }

/-- Nothing is defined yet. -/
def emptyStore : Store := ⟨fun _ => none, fun _ => 0⟩

/-- Whether a body returns a value within some steps. -/
def returnsWithin (n : Nat) (value : Word) (body : Body) : Bool :=
  match (body.execution smallSetting).run n (body.start emptyStore) with
  | .ended ⟨.returned (some word), _, _⟩ => word = value
  | _ => false

/-- The test on a run finds its result. -/
theorem ends_of_returnsWithin {n : Nat} {value : Word} {body : Body}
    (h : returnsWithin n value body = true) : ∃ ending, ending.outcome = .returned (some value) ∧
      (body.execution smallSetting).run n (body.start emptyStore) = .ended ending := by
  unfold returnsWithin at h
  split at h
  · next word globals calls hrun => exact ⟨_, by rw [of_decide_eq_true h], hrun⟩
  · cases h

/-- A run that returns a result does not fail. -/
theorem unfailing_of_returnsWithin {n : Nat} {value : Word} {body : Body}
    (h : returnsWithin n value body = true) :
    (body.behaviour smallSetting emptyStore).Unfailing := by
  obtain ⟨ending, houtcome, hrun⟩ := ends_of_returnsWithin h
  intro other hends
  obtain ⟨m, hother⟩ := System.ends_iff.mp hends
  rw [← System.ended_unique hrun hother, houtcome]
  exact ⟨Outcome.noConfusion, Outcome.noConfusion⟩

/-- The example has no temporaries. -/
theorem resummed_hasNoTemp : resummed.HasNoTemp := by
  intro i hi
  have hnone : ∀ location ∈ resummed.locations.toList, location ≠ .temp := by decide +kernel
  exact hnone _ (Array.mem_toList_iff.mpr (Array.mem_of_getElem? hi)) rfl

/-- The example has no fields. -/
theorem resummed_separates : smallSetting.Separates resummed := by
  have hnone : ∀ location ∈ resummed.locations.toList, location.isGlobal = false := by
    decide +kernel
  intro a b i j ha
  cases hnone _ (Array.mem_toList_iff.mpr (Array.mem_of_getElem? ha))

/-- The sum is computed once only when all passes have run. -/
theorem resummed_same_behaviour : ∃ after,
    runAll 60 [copies, commonTerms, copies, deadSaves] resummed = .ok (true, after) ∧
      WellFormed after ∧ Behaviour.Same (resummed.behaviour smallSetting emptyStore)
        (after.behaviour smallSetting emptyStore) := by
  have htest : (runAll 60 [copies, commonTerms, copies, deadSaves] resummed).toOption.map
      Prod.fst = some true := by decide +kernel
  cases hrun : runAll 60 [copies, commonTerms, copies, deadSaves] resummed with
  | error fault => rw [hrun] at htest; cases htest
  | ok result =>
      obtain ⟨changed, after⟩ := result
      rw [hrun] at htest
      cases htest
      exact ⟨after, rfl, runAll_same_behaviour (by decide +kernel) resummed_hasNoTemp
        (by decide) (by decide) hrun resummed_separates
        (unfailing_of_returnsWithin (by decide +kernel : returnsWithin 60 5 resummed = true))⟩

/-- Eliminating common subexpressions twice changes what the method returns:
    the second time unifies two temporaries of the first time because both hold
    `q` where the paths meet, though one of them still holds the sum that is
    read behind. -/
theorem resummed_twice_differs : WellFormed resummed ∧ resummed.HasNoTemp ∧
    smallSetting.Separates resummed ∧
    (resummed.behaviour smallSetting emptyStore).Unfailing ∧
    ∃ after, runAll 60 [commonTerms, commonTerms] resummed = .ok (true, after) ∧
      ¬ Behaviour.Same (resummed.behaviour smallSetting emptyStore)
        (after.behaviour smallSetting emptyStore) := by
  have hfive : returnsWithin 60 5 resummed = true := by decide +kernel
  refine ⟨by decide +kernel, resummed_hasNoTemp, resummed_separates,
    unfailing_of_returnsWithin hfive, ?_⟩
  have htest : (runAll 60 [commonTerms, commonTerms] resummed).toOption.any
      (fun result => result.1 && returnsWithin 60 1 result.2) = true := by decide +kernel
  cases hrun : runAll 60 [commonTerms, commonTerms] resummed with
  | error fault => rw [hrun] at htest; cases htest
  | ok result =>
      obtain ⟨changed, after⟩ := result
      rw [hrun] at htest
      obtain ⟨hchanged, hone⟩ := Bool.and_eq_true_iff.mp htest
      obtain rfl : changed = true := hchanged
      refine ⟨after, rfl, fun hsame => ?_⟩
      -- the two runs end in different results
      obtain ⟨ending, houtcome, hends⟩ := ends_of_returnsWithin hfive
      obtain ⟨ending', houtcome', hends'⟩ := ends_of_returnsWithin hone
      obtain ⟨n, hn⟩ :=
        System.ends_iff.mp ((hsame.ends ending).mp (System.ends_iff.mpr ⟨60, hends⟩))
      rw [System.ended_unique hn hends', houtcome'] at houtcome
      injection houtcome with hword
      exact absurd hword (by decide)

end Pass

end DecafBackend
