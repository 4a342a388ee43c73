import DecafBackend.Flow.Liveness
import DecafBackend.Proofs.Convergence

/-! # Solutions as fixpoints

    A solution of a dataflow problem fits itself: the state that enters a block
    is the join of what flows into it, and the state that leaves it is what its
    transfer makes of that.  Where states are sets of facts that are only lost,
    a solution is also the richest one: each fact that an output lacks was lost
    on the way to it.

    * `Worklist.outputs_of_step` — what one evaluation writes
    * `lost_of_solve` — facts are lacking only where they were lost
    * `solve_fixpoint` — solutions are fixpoints, whatever the analysis -/

namespace DecafBackend

namespace Worklist

variable {σ φ : Type} [DecidableEq σ] {analysis : Analysis σ} {graph : FlowGraph}

/-- An evaluation writes the output of its block, and no other one. -/
theorem outputs_of_step {solution : Solution σ} {block : Block} {pending : List Block}
    {next : Worklist σ} (h : step graph analysis solution block pending = .ok next) :
    ∃ output, analysis.transfer block (analysis.joinInputs graph solution block) = .ok output ∧
      ∀ other : Block, next.solution.outputs[other]? =
        if block = other then some output else solution.outputs[other]? := by
  rw [step] at h
  obtain ⟨output, htransfer, h⟩ := Checked.bind_eq_ok h
  refine ⟨output, htransfer, fun other => ?_⟩
  by_cases hsame : solution.outputs[block]? = some output
  · rw [if_pos hsame] at h
    cases h
    by_cases heq : block = other
    · rw [if_pos heq, ← heq]
      exact hsame
    · rw [if_neg heq]
  · rw [if_neg hsame] at h
    cases h
    exact Maps.getElem?_insert

variable {good : σ → Prop} {holds : φ → σ → Bool} {facts : List φ}
  (h : analysis.Descends graph good holds facts)
  (hinside : ∀ block, block ∈ analysis.order graph ↔ block ∈ graph.blocks)
  (hdependents : ∀ block ∈ graph.blocks, ∀ other ∈ analysis.dependents graph block,
    other ∈ graph.blocks)
  (hstart : analysis.Fed graph ∨ ∀ fact, holds fact analysis.bottom = true)
include h hinside hdependents hstart

/-- What every evaluation establishes of its output holds of all outputs in the
    end. -/
theorem outputs_of_descending {motive : Block → σ → Prop}
    (hevaluate : ∀ {solution : Solution σ} {block : Block} {output : σ}, block ∈ graph.blocks →
      (analysis.contributions graph solution block ≠ [] ∨
        ∀ fact, holds fact analysis.bottom = true) →
      (∀ {other : Block} {found : σ}, solution.outputs[other]? = some found → good found) →
      (∀ {other : Block} {found : σ}, solution.outputs[other]? = some found →
        motive other found) →
      analysis.transfer block (analysis.joinInputs graph solution block) = .ok output →
      motive block output)
    {steps : Nat} {worklist : Worklist σ} {solution : Solution σ}
    (hd : Descending analysis graph good holds worklist)
    (hall : ∀ {block : Block} {output : σ},
      worklist.solution.outputs[block]? = some output → motive block output)
    (hrun : run graph analysis steps worklist = .ok solution) {block : Block} {output : σ}
    (houtput : solution.outputs[block]? = some output) : motive block output := by
  -- by induction on the steps: an output of before has its reason, the new one gets one
  induction steps generalizing worklist with
  | zero =>
      obtain ⟨current, pending⟩ := worklist
      cases pending with
      | nil => cases hrun; exact hall houtput
      | cons first pending => cases hrun
  | succ steps ih =>
      obtain ⟨current, pending⟩ := worklist
      cases pending with
      | nil => cases hrun; exact hall houtput
      | cons first pending =>
          rw [run] at hrun
          obtain ⟨next, hnext, hrun⟩ := Checked.bind_eq_ok hrun
          obtain ⟨hmem, hfed, -⟩ := hd.pop hstart
          obtain ⟨next', hnext', hd', -⟩ := hd.step h hinside hdependents hstart
          cases hnext.symm.trans hnext'
          obtain ⟨written, htransfer, houtputs⟩ := outputs_of_step hnext
          refine ih hd' (fun {other found} hfound => ?_) hrun
          rw [houtputs] at hfound
          split at hfound
          · next heq =>
              cases hfound
              subst heq
              exact hevaluate ((hinside first).mp hmem) hfed hd.outputs hall htransfer
          · exact hall hfound

end Worklist

section

variable {σ φ : Type} [DecidableEq σ] {analysis : Analysis σ} {graph : FlowGraph}
  {good : σ → Prop} {holds : φ → σ → Bool} {facts : List φ} {solution : Solution σ} {block : Block}

omit [DecidableEq σ] in
/-- A fact that a join lacks is lacking in something that flows into the block. -/
theorem lacks_joinInputs (h : analysis.Descends graph good holds facts)
    (hgood : ∀ {other : Block} {output : σ}, solution.outputs[other]? = some output → good output)
    (hsome : analysis.contributions graph solution block ≠ [] ∨
      ∀ fact, holds fact analysis.bottom = true) {fact : φ}
    (hlacks : holds fact (analysis.joinInputs graph solution block) = false) :
    (analysis.isBoundary graph block = true ∧ holds fact analysis.initial = false) ∨
      ∃ other ∈ analysis.neighbours graph block, ∃ output,
        solution.outputs[other]? = some output ∧ holds fact output = false := by
  by_cases hnone : analysis.contributions graph solution block = []
  · have hbottom := hsome.resolve_left (fun hne => hne hnone) fact
    rw [Analysis.joinInputs, hnone] at hlacks
    rw [hbottom] at hlacks
    cases hlacks
  · have hiff := holds_joinInputs h hgood hnone fact
    -- not everything that flows in has the fact, and what lacks it is one of two kinds
    rw [hlacks] at hiff
    obtain ⟨state, hstate⟩ := Classical.not_forall.mp fun hall =>
      Bool.false_ne_true (hiff.mpr hall)
    obtain ⟨hmem, hlacking⟩ := Classical.not_imp.mp hstate
    rw [Bool.not_eq_true] at hlacking
    rw [Analysis.contributions, List.mem_append] at hmem
    rcases hmem with hmem | hmem
    · split at hmem
      · next hboundary => exact Or.inl ⟨hboundary, List.mem_singleton.mp hmem ▸ hlacking⟩
      · cases hmem
    · obtain ⟨other, hother, houtput⟩ := List.mem_filterMap.mp hmem
      exact Or.inr ⟨other, hother, state, houtput, hlacking⟩

/-- **FACTS ARE LACKING ONLY WHERE THEY WERE LOST**: if a transfer loses a fact
    only where it says so, or where the fact was lost in front of it, then every
    fact that an output lacks was lost. -/
theorem lost_of_solve (h : analysis.Descends graph good holds facts) (hclosed : graph.Closed)
    (hstart : analysis.Fed graph ∨ ∀ fact, holds fact analysis.bottom = true)
    (lost : Block → φ → Prop)
    (hlost : ∀ {block : Block} {input output : σ} {fact : φ}, block ∈ graph.blocks → good input →
      analysis.transfer block input = .ok output → holds fact output = false →
      (holds fact input = false →
        (analysis.isBoundary graph block = true ∧ holds fact analysis.initial = false) ∨
          ∃ other ∈ analysis.neighbours graph block, lost other fact) → lost block fact)
    {steps : Nat} (hsolve : solve steps graph analysis = .ok solution) {output : σ}
    (houtput : solution.outputs[block]? = some output) {fact : φ}
    (hlacks : holds fact output = false) : lost block fact := by
  have hnone : ∀ {block : Block} {output : σ} {P : Prop},
      ({} : Solution σ).outputs[block]? = some output → P := fun hout => by cases hout
  have hd : Worklist.Descending analysis graph good holds ⟨{}, analysis.order graph⟩ := by
    refine ⟨⟨[], ⟨analysis.order graph, [], rfl, (List.append_nil _).symm, fun _ h => by cases h⟩,
      fun block => ⟨fun hsome => (by cases hsome), fun hmem => (by cases hmem)⟩⟩,
      fun hout => hnone hout, fun hout => hnone hout, fun hout => hnone hout⟩
  refine Worklist.outputs_of_descending (motive := fun block output =>
    ∀ fact, holds fact output = false → lost block fact) h (Analysis.mem_order_iff hclosed)
    (fun block hblock other hother => Analysis.dependents_inside hclosed hblock hother) hstart
    ?_ hd (fun hout => hnone hout) hsolve houtput fact hlacks
  intro current other written hother hfed hgood hmotive htransfer fact' hlacks'
  refine hlost hother (good_joinInputs h hgood other) htransfer hlacks' fun hjoin => ?_
  refine (lacks_joinInputs h hgood hfed hjoin).imp id ?_
  rintro ⟨source, hsource, found, hfound, hlacking⟩
  exact ⟨source, hsource, hmotive hfound fact' hlacking⟩

end

/-! ## Fixpoints -/

/-- **SOLUTIONS ARE FIXPOINTS**, whatever the analysis: every block of the body
    has an input and an output, the input is the join of what the outputs let
    flow into the block, and the output is what the transfer makes of it. -/
theorem solve_fixpoint {σ : Type} [DecidableEq σ] {body : Body} {graph : FlowGraph}
    (hgraph : FlowGraph.ofBody body = .ok graph) {analysis : Analysis σ} {steps : Nat}
    {solution : Solution σ} (hsolve : solve steps graph analysis = .ok solution) :
    ∀ block ∈ body.blockKeys, ∃ input output,
      solution.input block = .ok input ∧ solution.output block = .ok output ∧
        input = analysis.joinInputs graph solution block ∧
        analysis.transfer block input = .ok output := by
  intro block hblock
  rw [← (FlowGraph.of_ofBody hgraph).blocks] at hblock
  obtain ⟨output, hinput, htransfer, houtput⟩ := settled_of_solve hsolve hblock
  refine ⟨_, output, ?_, ?_, rfl, htransfer⟩
  · rw [Solution.input, hinput]
  · rw [Solution.output, houtput]

/-- A body that counts down in a loop, and a block that control never comes to. -/
def countingDown : Body where
  name := ⟨0⟩
  records := #[.param 0, .save ⟨0⟩ ⟨0⟩,
    .label ⟨0⟩, .load ⟨0⟩, .branch ⟨3⟩ ⟨1⟩,
    .load ⟨0⟩, .load ⟨1⟩, .binary .sub ⟨5⟩ ⟨6⟩, .save ⟨7⟩ ⟨0⟩, .jump ⟨0⟩,
    .jump ⟨0⟩,
    .label ⟨1⟩, .load ⟨0⟩, .ret (some ⟨12⟩)]
  locations := #[.localVar ⟨1⟩, .constant 1]
  labels := #[some ⟨1⟩, some ⟨4⟩]
  blocks := #[⟨none, [⟨1⟩]⟩, ⟨some ⟨0⟩, [⟨2⟩, ⟨4⟩]⟩, ⟨none, [⟨8⟩, ⟨9⟩]⟩, ⟨none, [⟨10⟩]⟩,
    ⟨some ⟨1⟩, [⟨11⟩, ⟨13⟩]⟩]

/-- Liveness of the loop. -/
theorem countingDown_fixpoint : ∃ graph solution,
    FlowGraph.ofBody countingDown = .ok graph ∧
    solve 40 graph (LiveReads.analysis countingDown) = .ok solution ∧
    ∀ block ∈ countingDown.blockKeys, ∃ input output,
      solution.input block = .ok input ∧ solution.output block = .ok output ∧
        input = (LiveReads.analysis countingDown).joinInputs graph solution block ∧
        (LiveReads.analysis countingDown).transfer block input = .ok output := by
  obtain ⟨graph, hgraph, htest⟩ := @FlowGraph.exists_of_test countingDown
    (fun graph => (solve 40 graph (LiveReads.analysis countingDown)).toOption.isSome)
    (by decide +kernel)
  cases hsolve : solve 40 graph (LiveReads.analysis countingDown) with
  | error fault => rw [hsolve] at htest; cases htest
  | ok solution => exact ⟨graph, solution, hgraph, hsolve, solve_fixpoint hgraph hsolve⟩

end DecafBackend
