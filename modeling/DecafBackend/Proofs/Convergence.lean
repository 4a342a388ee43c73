import DecafBackend.Proofs.Maps
import DecafBackend.Proofs.Reachability
import Mathlib.Algebra.GroupWithZero.Nat
import Mathlib.Algebra.Order.BigOperators.Group.List
import Mathlib.Algebra.Order.Group.Nat

/-! # When the solver comes to an end

    States are read as sets of facts.  If a join has the facts that all its
    sides have, and a transfer never gains facts when its input loses some,
    then the outputs of blocks only lose facts, and the solver comes to an end.
    This needs that no block is evaluated before something flows into it, or
    that the state of such a block has all facts.

    Where outputs come back to what they were while blocks are pending, the
    solver goes on forever.

    * `Analysis.Descends`, `Analysis.Fed` — the conditions
    * `Descending.step` — what one evaluation keeps, and how it comes nearer to the end
    * `solve_of_descends` — the solver comes to an end
    * `unsettled_of_returns` — the solver goes on forever -/

namespace DecafBackend

/-- A state has all the facts of another one. -/
def Loses {σ φ : Type} (holds : φ → σ → Bool) (early late : σ) : Prop :=
  ∀ fact, holds fact late = true → holds fact early = true

/-- Nothing is lost where nothing changes. -/
theorem Loses.refl {σ φ : Type} {holds : φ → σ → Bool} (state : σ) : Loses holds state state :=
  fun _ h => h

/-- What is lost twice is lost. -/
theorem Loses.trans {σ φ : Type} {holds : φ → σ → Bool} {a b c : σ} (h₁ : Loses holds a b)
    (h₂ : Loses holds b c) : Loses holds a c := fun fact h => h₁ fact (h₂ fact h)

namespace Analysis

/-- States of an analysis, as sets of facts that are lost along the way.
    Finitely many facts tell the good states apart. -/
structure Descends {σ φ : Type} (analysis : Analysis σ) (graph : FlowGraph) (good : σ → Prop)
    (holds : φ → σ → Bool) (facts : List φ) : Prop where
  initial : good analysis.initial
  bottom : good analysis.bottom
  join : ∀ {a b}, good a → good b → good (analysis.join a b)
  holds_join : ∀ {a b}, good a → good b → ∀ fact,
    holds fact (analysis.join a b) = true ↔ holds fact a = true ∧ holds fact b = true
  ext : ∀ {a b}, good a → good b → (∀ fact ∈ facts, holds fact a = holds fact b) → a = b
  transfer : ∀ {block input}, block ∈ graph.blocks → good input →
    ∃ output, analysis.transfer block input = .ok output ∧ good output
  mono : ∀ {block a b output output'}, block ∈ graph.blocks → good a → good b →
    Loses holds a b → analysis.transfer block a = .ok output →
    analysis.transfer block b = .ok output' → Loses holds output output'

/-- Something flows into every block, at the latest when those in front of it
    were evaluated. -/
def Fed {σ : Type} (analysis : Analysis σ) (graph : FlowGraph) : Prop :=
  ∀ before block after, analysis.order graph = before ++ block :: after →
    analysis.isBoundary graph block = true ∨
      ∃ source ∈ before, source ∈ analysis.neighbours graph block

/-- In a graph without unreachable blocks, facts flow forward into every block. -/
theorem fed_of_reached {σ : Type} {analysis : Analysis σ} {graph : FlowGraph}
    (hdirection : analysis.direction = .forward) (hclosed : graph.Closed)
    (hreached : ∀ block ∈ graph.blocks, graph.Reached block) : analysis.Fed graph := by
  intro before block after horder
  rw [order, hdirection] at horder
  have hblock := FlowGraph.mem_blocks_of_reversePostorder hclosed
    (horder ▸ List.mem_append_right before List.mem_cons_self)
  cases hentry : graph.entry? with
  | none =>
      rw [List.head?_eq_none_iff.mp hentry] at hblock
      cases hblock
  | some entry =>
      rcases FlowGraph.fed_reversePostorder hclosed hentry horder (hreached block hblock) with
        rfl | ⟨source, hbefore, hsource⟩
      · left
        rw [isBoundary, hdirection]
        exact beq_iff_eq.mpr hentry
      · right
        refine ⟨source, hbefore, ?_⟩
        rw [neighbours, hdirection]
        exact hsource

end Analysis

/-! ## Joins lose facts -/

section

variable {σ φ : Type} {analysis : Analysis σ} {graph : FlowGraph} {good : σ → Prop}
  {holds : φ → σ → Bool} {facts : List φ} {solution solution' : Solution σ} {block : Block}

/-- What flows into a block is in range. -/
theorem good_of_contribution (h : analysis.Descends graph good holds facts)
    (hgood : ∀ {other : Block} {output : σ}, solution.outputs[other]? = some output → good output)
    {state : σ} (hstate : state ∈ analysis.contributions graph solution block) : good state := by
  rw [Analysis.contributions, List.mem_append] at hstate
  rcases hstate with hstate | hstate
  · split at hstate
    · exact List.mem_singleton.mp hstate ▸ h.initial
    · cases hstate
  · obtain ⟨other, -, hother⟩ := List.mem_filterMap.mp hstate
    exact hgood hother

/-- What is joined at a block is in range. -/
theorem good_joinInputs (h : analysis.Descends graph good holds facts)
    (hgood : ∀ {other : Block} {output : σ}, solution.outputs[other]? = some output → good output)
    (block : Block) : good (analysis.joinInputs graph solution block) :=
  analysis.joinInputs_invariant graph h.initial h.bottom (fun _ _ ha hb => h.join ha hb) hgood

/-- A join has the facts that everything has that flows into the block. -/
theorem holds_joinInputs (h : analysis.Descends graph good holds facts)
    (hgood : ∀ {other : Block} {output : σ}, solution.outputs[other]? = some output → good output)
    (hsome : analysis.contributions graph solution block ≠ []) (fact : φ) :
    holds fact (analysis.joinInputs graph solution block) = true ↔
      ∀ state ∈ analysis.contributions graph solution block, holds fact state = true := by
  have hall : ∀ state ∈ analysis.contributions graph solution block, good state :=
    fun state hstate => good_of_contribution h hgood hstate
  rw [Analysis.joinInputs]
  cases hlist : analysis.contributions graph solution block with
  | nil => exact absurd hlist hsome
  | cons first rest =>
      rw [hlist] at hall
      dsimp only
      have hrest : ∀ state ∈ rest, good state :=
        fun state hstate => hall state (List.mem_cons_of_mem _ hstate)
      have hfirst := hall first List.mem_cons_self
      -- by induction on the rest, for every first state: each join is one state more to ask
      clear hall hlist hsome
      induction rest generalizing first with
      | nil => simp
      | cons second rest ih =>
          have hsecond := hrest second List.mem_cons_self
          rw [List.foldl_cons]
          refine (ih (analysis.join first second)
            (fun state hstate => hrest state (List.mem_cons_of_mem _ hstate))
            (h.join hfirst hsecond)).trans ?_
          simp only [List.forall_mem_cons, h.holds_join hfirst hsecond, and_assoc]

/-- Outputs that blocks have stay, and lose facts only. -/
def Keeps (holds : φ → σ → Bool) (early late : Solution σ) : Prop :=
  ∀ {block : Block} {output : σ}, early.outputs[block]? = some output →
    ∃ output', late.outputs[block]? = some output' ∧ Loses holds output output'

/-- What flows into a block loses facts as the outputs do. -/
theorem Keeps.contribution (hkeeps : Keeps holds solution solution') {state : σ}
    (hstate : state ∈ analysis.contributions graph solution block) :
    ∃ state' ∈ analysis.contributions graph solution' block, Loses holds state state' := by
  rw [Analysis.contributions, List.mem_append] at hstate
  rcases hstate with hstate | hstate
  · refine ⟨state, ?_, Loses.refl state⟩
    rw [Analysis.contributions]
    exact List.mem_append_left _ hstate
  · obtain ⟨other, hother, houtput⟩ := List.mem_filterMap.mp hstate
    obtain ⟨output', houtput', hloses⟩ := hkeeps houtput
    refine ⟨output', ?_, hloses⟩
    rw [Analysis.contributions]
    exact List.mem_append_right _ (List.mem_filterMap.mpr ⟨other, hother, houtput'⟩)

/-- If outputs lose facts, then so do joins. -/
theorem Keeps.joinInputs (h : analysis.Descends graph good holds facts)
    (hgood : ∀ {other : Block} {output : σ}, solution.outputs[other]? = some output → good output)
    (hgood' : ∀ {other : Block} {output : σ}, solution'.outputs[other]? = some output → good output)
    (hkeeps : Keeps holds solution solution')
    (hsome : analysis.contributions graph solution block ≠ [] ∨
      ∀ fact, holds fact analysis.bottom = true) :
    Loses holds (analysis.joinInputs graph solution block)
      (analysis.joinInputs graph solution' block) := by
  intro fact hfact
  by_cases hnone : analysis.contributions graph solution block = []
  · rw [Analysis.joinInputs, hnone]
    exact hsome.resolve_left (fun hne => hne hnone) fact
  · -- more may flow into the block, but what flowed into it before has lost facts only
    rw [holds_joinInputs h hgood hnone]
    intro state hstate
    obtain ⟨state', hstate', hloses⟩ := hkeeps.contribution hstate
    have hsome' : analysis.contributions graph solution' block ≠ [] := List.ne_nil_of_mem hstate'
    exact hloses fact ((holds_joinInputs h hgood' hsome' fact).mp hfact state' hstate')

end

/-! ## Evaluations -/

namespace Worklist

/-- What becomes pending behind the others. -/
theorem enqueue_eq (pending blocks : List Block) : ∃ added,
    enqueue pending blocks = pending ++ added ∧ added.Nodup ∧
      ∀ block ∈ added, block ∈ blocks ∧ block ∉ pending := by
  rw [enqueue]
  induction blocks generalizing pending with
  | nil => exact ⟨[], (List.append_nil _).symm, List.nodup_nil, fun _ h => by cases h⟩
  | cons first rest ih =>
      rw [List.foldl_cons]
      by_cases hfirst : pending.contains first = true
      -- a block that is pending already is not added twice
      · rw [if_pos hfirst]
        obtain ⟨added, hadded, hnodup, hnew⟩ := ih pending
        refine ⟨added, hadded, hnodup, fun block hblock => ?_⟩
        exact ⟨List.mem_cons_of_mem _ (hnew block hblock).1, (hnew block hblock).2⟩
      · rw [if_neg hfirst]
        obtain ⟨added, hadded, hnodup, hnew⟩ := ih (pending ++ [first])
        refine ⟨first :: added, by rw [hadded, List.append_assoc]; rfl, ?_, ?_⟩
        · refine List.nodup_cons.mpr ⟨fun hmem => ?_, hnodup⟩
          exact (hnew first hmem).2 (List.mem_append_right _ List.mem_cons_self)
        · intro block hblock
          rcases List.mem_cons.mp hblock with rfl | hblock
          · exact ⟨List.mem_cons_self, fun hmem => hfirst (List.contains_iff_mem.mpr hmem)⟩
          · obtain ⟨hmem, hnot⟩ := hnew block hblock
            exact ⟨List.mem_cons_of_mem _ hmem,
              fun hpending => hnot (List.mem_append_left _ hpending)⟩

/-- Blocks are pending in order first, and then those that are evaluated again. -/
def Queue (order done pending : List Block) : Prop :=
  ∃ todo again, order = done ++ todo ∧ pending = todo ++ again ∧ ∀ block ∈ again, block ∈ done

/-- The first block that is pending was evaluated before, or its turn has come. -/
theorem Queue.pop {order done pending : List Block} {block : Block}
    (h : Queue order done (block :: pending)) :
    (block ∈ done ∧ Queue order done pending) ∨
      ∃ after, order = done ++ block :: after ∧ Queue order (done ++ [block]) pending := by
  obtain ⟨todo, again, horder, hpending, hagain⟩ := h
  cases todo with
  | nil =>
      rw [List.nil_append] at hpending
      subst hpending
      refine Or.inl ⟨hagain block List.mem_cons_self, [], pending, horder, rfl, ?_⟩
      exact fun other hother => hagain other (List.mem_cons_of_mem _ hother)
  | cons first todo =>
      injection hpending with hfirst hpending
      subst hfirst
      refine Or.inr ⟨todo, horder, todo, again, ?_, hpending, fun other hother => ?_⟩
      · rw [horder, List.append_assoc]
        rfl
      · exact List.mem_append_left _ (hagain other hother)

/-- Blocks that become pending go to the end of the queue. -/
theorem Queue.push {order done pending added : List Block} (h : Queue order done pending)
    (hadded : ∀ block ∈ added, block ∈ order ∧ block ∉ pending) :
    Queue order done (pending ++ added) := by
  obtain ⟨todo, again, horder, hpending, hagain⟩ := h
  refine ⟨todo, again ++ added, horder, by rw [hpending, List.append_assoc], ?_⟩
  intro block hblock
  rcases List.mem_append.mp hblock with hblock | hblock
  · exact hagain block hblock
  · obtain ⟨hmem, hnot⟩ := hadded block hblock
    rw [horder] at hmem
    refine (List.mem_append.mp hmem).resolve_right fun htodo => hnot ?_
    rw [hpending]
    exact List.mem_append_left _ htodo

section

variable {σ φ : Type} {analysis : Analysis σ} {graph : FlowGraph} {good : σ → Prop}
  {holds : φ → σ → Bool} {facts : List φ}

/-- What holds of the solver on its way: blocks are evaluated in order first;
    something flows into those that were evaluated; and they were evaluated
    with all the facts that flow into them now. -/
structure Descending (analysis : Analysis σ) (graph : FlowGraph) (good : σ → Prop)
    (holds : φ → σ → Bool) (worklist : Worklist σ) : Prop where
  queue : ∃ done, Queue (analysis.order graph) done worklist.pending ∧
    ∀ block : Block, (worklist.solution.outputs[block]?).isSome = true ↔ block ∈ done
  outputs : ∀ {block : Block} {output : σ}, worklist.solution.outputs[block]? = some output →
    good output
  fed : ∀ {block : Block} {output : σ}, worklist.solution.outputs[block]? = some output →
    analysis.contributions graph worklist.solution block ≠ [] ∨
      ∀ fact, holds fact analysis.bottom = true
  lost : ∀ {block : Block} {output : σ}, worklist.solution.outputs[block]? = some output →
    ∃ input, good input ∧ analysis.transfer block input = .ok output ∧
      Loses holds input (analysis.joinInputs graph worklist.solution block)

/-- The number of times that the output of a block may still change. -/
def changesLeft (holds : φ → σ → Bool) (facts : List φ) (solution : Solution σ) (block : Block) :
    Nat :=
  match solution.outputs[block]? with
  | none => facts.length + 1
  | some output => facts.countP (holds · output)

/-- How far the solver is from its end. -/
def distance (graph : FlowGraph) (holds : φ → σ → Bool) (facts : List φ) (worklist : Worklist σ) :
    Nat :=
  worklist.pending.length +
    graph.blocks.length * (graph.blocks.map (changesLeft holds facts worklist.solution)).sum

/-- An output that loses a fact has fewer changes left. -/
theorem changesLeft_lt {solution : Solution σ} {block : Block} {output : σ}
    (h : ∀ old, solution.outputs[block]? = some old →
      facts.countP (holds · output) < facts.countP (holds · old)) :
    facts.countP (holds · output) < changesLeft holds facts solution block := by
  rw [changesLeft]
  cases hold : solution.outputs[block]? with
  | none => exact Nat.lt_succ_of_le List.countP_le_length
  | some old => exact h old hold

/-- A change of an output brings the end nearer, whatever becomes pending. -/
theorem sum_changesLeft_lt {solution solution' : Solution σ} {block : Block} {output : σ}
    (hblock : block ∈ graph.blocks)
    (houtputs : ∀ other : Block, solution'.outputs[other]? =
      if block = other then some output else solution.outputs[other]?)
    (hlt : facts.countP (holds · output) < changesLeft holds facts solution block) :
    (graph.blocks.map (changesLeft holds facts solution')).sum <
      (graph.blocks.map (changesLeft holds facts solution)).sum := by
  have hself : changesLeft holds facts solution' block = facts.countP (holds · output) := by
    rw [changesLeft, houtputs, if_pos rfl]
  refine List.sum_lt_sum _ _ (fun other _ => ?_) ⟨block, hblock, hself ▸ hlt⟩
  by_cases heq : block = other
  · rw [← heq, hself]
    exact Nat.le_of_lt hlt
  · rw [changesLeft, houtputs, if_neg heq, ← changesLeft]

/-- Facts that were lost tell two outputs apart. -/
theorem countP_lt_of_loses (h : analysis.Descends graph good holds facts) {old new : σ}
    (hold : good old) (hnew : good new) (hne : old ≠ new) (hloses : Loses holds old new) :
    facts.countP (holds · new) < facts.countP (holds · old) := by
  by_contra hnot
  refine hne (h.ext hold hnew fun fact hfact => ?_)
  cases hholds : holds fact new with
  | true => exact hloses fact hholds
  | false =>
      cases hold' : holds fact old with
      | false => rfl
      | true =>
          exact absurd (countP_lt_of_mem (fun other _ => hloses other) hfact hold' hholds) hnot

/-- Something flows into a block when its turn has come. -/
theorem contributions_ne_nil (hfed : analysis.Fed graph) {done after : List Block} {block : Block}
    (horder : analysis.order graph = done ++ block :: after) {solution : Solution σ}
    (hdone : ∀ other ∈ done, (solution.outputs[other]?).isSome = true) :
    analysis.contributions graph solution block ≠ [] := by
  rcases hfed done block after horder with hboundary | ⟨source, hsource, hneighbour⟩
  · rw [Analysis.contributions, if_pos hboundary]
    exact List.cons_ne_nil _ _
  · obtain ⟨output, houtput⟩ := Option.isSome_iff_exists.mp (hdone source hsource)
    have hflows : output ∈ analysis.contributions graph solution block := by
      rw [Analysis.contributions]
      exact List.mem_append_right _ (List.mem_filterMap.mpr ⟨source, hneighbour, houtput⟩)
    exact List.ne_nil_of_mem hflows

/-- When a block is taken from the worklist, something flows into it, and it
    counts as evaluated. -/
theorem Descending.pop {solution : Solution σ} {block : Block} {pending : List Block}
    (hd : Descending analysis graph good holds ⟨solution, block :: pending⟩)
    (hstart : analysis.Fed graph ∨ ∀ fact, holds fact analysis.bottom = true) :
    block ∈ analysis.order graph ∧
    (analysis.contributions graph solution block ≠ [] ∨
      ∀ fact, holds fact analysis.bottom = true) ∧
    ∃ done, Queue (analysis.order graph) done pending ∧
      ∀ other : Block, other ∈ done ↔
        block = other ∨ (solution.outputs[other]?).isSome = true := by
  -- the block is either evaluated again or the next one of the order
  obtain ⟨done, hqueue, hdone⟩ := hd.queue
  rcases hqueue.pop with ⟨hblock, hqueue'⟩ | ⟨after, horder, hqueue'⟩
  · obtain ⟨output, houtput⟩ := Option.isSome_iff_exists.mp ((hdone block).mpr hblock)
    obtain ⟨todo, -, horder, -⟩ := hqueue
    refine ⟨horder ▸ List.mem_append_left _ hblock, hd.fed houtput, done, hqueue', ?_⟩
    intro other
    rw [hdone other]
    exact ⟨Or.inr, fun hor => hor.elim (fun heq => heq ▸ hblock) id⟩
  · refine ⟨horder ▸ List.mem_append_right _ List.mem_cons_self, ?_, done ++ [block], hqueue', ?_⟩
    · rcases hstart with hfed | hbottom
      · exact Or.inl (contributions_ne_nil hfed horder fun other hother => (hdone other).mpr hother)
      · exact Or.inr hbottom
    · intro other
      rw [List.mem_append, List.mem_singleton, hdone other]
      constructor
      · rintro (hmem | rfl)
        · exact Or.inr hmem
        · exact Or.inl rfl
      · rintro (rfl | hmem)
        · exact Or.inr rfl
        · exact Or.inl hmem

/-- An output that was replaced has lost facts. -/
theorem Descending.lost_output (h : analysis.Descends graph good holds facts)
    {worklist : Worklist σ} (hd : Descending analysis graph good holds worklist) {block : Block}
    (hblock : block ∈ graph.blocks) {output old : σ}
    (htransfer : analysis.transfer block (analysis.joinInputs graph worklist.solution block) =
      .ok output)
    (hold : worklist.solution.outputs[block]? = some old) : Loses holds old output := by
  obtain ⟨input, hinput, hbefore, hloses⟩ := hd.lost hold
  exact h.mono hblock hinput (good_joinInputs h hd.outputs block) hloses hbefore htransfer

/-- What holds of the solver holds still when an output was replaced. -/
theorem Descending.replace (h : analysis.Descends graph good holds facts)
    {worklist next : Worklist σ} (hd : Descending analysis graph good holds worklist)
    {block : Block} (hblock : block ∈ graph.blocks)
    (hfed : analysis.contributions graph worklist.solution block ≠ [] ∨
      ∀ fact, holds fact analysis.bottom = true) {output : σ} (houtput : good output)
    (htransfer : analysis.transfer block (analysis.joinInputs graph worklist.solution block) =
      .ok output)
    (houtputs : ∀ other : Block, next.solution.outputs[other]? =
      if block = other then some output else worklist.solution.outputs[other]?)
    (hqueue : ∃ done, Queue (analysis.order graph) done next.pending ∧
      ∀ other : Block, (next.solution.outputs[other]?).isSome = true ↔ other ∈ done) :
    Descending analysis graph good holds next := by
  -- an output is replaced by one with fewer facts, the others stay
  have hkeeps : Keeps holds worklist.solution next.solution := by
    intro other old hold
    rw [houtputs]
    by_cases heq : block = other
    · subst heq
      exact ⟨output, if_pos rfl, hd.lost_output h hblock htransfer hold⟩
    · exact ⟨old, by rw [if_neg heq, hold], Loses.refl old⟩
  have hgood : ∀ {other : Block} {new : σ}, next.solution.outputs[other]? = some new →
      good new := by
    intro other new hnew
    rw [houtputs] at hnew
    split at hnew
    · cases hnew
      exact houtput
    · exact hd.outputs hnew
  -- in front of the replacement, every block with an output had what it has now
  have hbefore : ∀ {other : Block} {new : σ}, next.solution.outputs[other]? = some new →
      (analysis.contributions graph worklist.solution other ≠ [] ∨
        ∀ fact, holds fact analysis.bottom = true) ∧
      ∃ input, good input ∧ analysis.transfer other input = .ok new ∧
        Loses holds input (analysis.joinInputs graph worklist.solution other) := by
    intro other new hnew
    rw [houtputs] at hnew
    split at hnew
    · next heq =>
        cases hnew
        subst heq
        exact ⟨hfed, _, good_joinInputs h hd.outputs block, htransfer, Loses.refl _⟩
    · exact ⟨hd.fed hnew, hd.lost hnew⟩
  refine ⟨hqueue, hgood, ?_, ?_⟩
  · intro other new hnew
    refine (hbefore hnew).1.imp (fun hsome => ?_) id
    obtain ⟨state, hstate⟩ := List.exists_mem_of_ne_nil _ hsome
    obtain ⟨state', hstate', -⟩ := hkeeps.contribution hstate
    exact List.ne_nil_of_mem hstate'
  · intro other new hnew
    obtain ⟨hsome, input, hinput, hnew, hloses⟩ := hbefore hnew
    exact ⟨input, hinput, hnew, hloses.trans (hkeeps.joinInputs h hd.outputs hgood hsome)⟩

variable [DecidableEq σ] (h : analysis.Descends graph good holds facts)
  (hinside : ∀ block, block ∈ analysis.order graph ↔ block ∈ graph.blocks)
  (hdependents : ∀ block ∈ graph.blocks, ∀ other ∈ analysis.dependents graph block,
    other ∈ graph.blocks)
  (hstart : analysis.Fed graph ∨ ∀ fact, holds fact analysis.bottom = true)
include h hinside hdependents hstart

/-- **EVERY EVALUATION COMES NEARER TO THE END**: an output that is replaced
    has lost a fact, which weighs more than the blocks that become pending. -/
theorem Descending.step {solution : Solution σ} {block : Block} {pending : List Block}
    (hd : Descending analysis graph good holds ⟨solution, block :: pending⟩) :
    ∃ next, Worklist.step graph analysis solution block pending = .ok next ∧
      Descending analysis graph good holds next ∧
      distance graph holds facts next <
        distance graph holds facts ⟨solution, block :: pending⟩ := by
  obtain ⟨hmem, hfed, done, hqueue, hdone⟩ := hd.pop hstart
  have hblock := (hinside block).mp hmem
  obtain ⟨output, htransfer, houtput⟩ := h.transfer hblock (good_joinInputs h hd.outputs block)
  rw [Worklist.step, htransfer]
  dsimp only [bind, Except.bind]
  -- an output that stays shortens the queue; one that is new has lost a fact
  by_cases hsame : solution.outputs[block]? = some output
  · rw [if_pos hsame]
    refine ⟨_, rfl, ⟨⟨done, hqueue, fun other => ?_⟩, hd.outputs, hd.fed, hd.lost⟩, ?_⟩
    · rw [hdone other]
      refine ⟨Or.inr, fun hor => hor.elim (fun heq => ?_) id⟩
      subst heq
      exact Option.isSome_iff_exists.mpr ⟨output, hsame⟩
    · simp only [distance, List.length_cons]
      exact Nat.add_lt_add_right (Nat.lt_succ_self _) _
  · rw [if_neg hsame]
    obtain ⟨added, hadded, hnodup, hnew⟩ := enqueue_eq pending (analysis.dependents graph block)
    have hsub : ∀ other ∈ added, other ∈ graph.blocks :=
      fun other hother => hdependents block hblock other (hnew other hother).1
    have houtputs : ∀ other : Block, (solution.outputs.insert block output)[other]? =
        if block = other then some output else solution.outputs[other]? :=
      fun other => Maps.getElem?_insert
    refine ⟨_, rfl, ?_, ?_⟩
    · refine hd.replace h hblock hfed houtput htransfer houtputs ⟨done, ?_, fun other => ?_⟩
      · show Queue (analysis.order graph) done (enqueue pending (analysis.dependents graph block))
        rw [hadded]
        exact hqueue.push fun other hother =>
          ⟨(hinside other).mpr (hsub other hother), (hnew other hother).2⟩
      · show ((solution.outputs.insert block output)[other]?).isSome = true ↔ other ∈ done
        rw [houtputs, hdone other]
        by_cases heq : block = other
        · rw [if_pos heq]
          exact ⟨fun _ => Or.inl heq, fun _ => rfl⟩
        · rw [if_neg heq, or_iff_right heq]
    · have hlt : facts.countP (holds · output) < changesLeft holds facts solution block := by
        refine changesLeft_lt fun old hold => ?_
        refine countP_lt_of_loses h (hd.outputs hold) houtput ?_
          (hd.lost_output h hblock htransfer hold)
        rintro rfl
        exact hsame hold
      have hsum : (graph.blocks.map (changesLeft holds facts
          { solution with
            inputs := solution.inputs.insert block (analysis.joinInputs graph solution block)
            iterations := solution.iterations + 1
            outputs := solution.outputs.insert block output })).sum <
          (graph.blocks.map (changesLeft holds facts solution)).sum :=
        sum_changesLeft_lt hblock houtputs hlt
      have hlength : added.length ≤ graph.blocks.length := hnodup.length_le_of_subset hsub
      simp only [distance, hadded, List.length_append, List.length_cons]
      have hmul := Nat.mul_le_mul_left graph.blocks.length (Nat.succ_le_of_lt hsum)
      rw [Nat.mul_succ] at hmul
      omega

/-- The solver comes to an end from where it is. -/
theorem Descending.run {worklist : Worklist σ} (hd : Descending analysis graph good holds worklist)
    {steps : Nat} (hsteps : distance graph holds facts worklist ≤ steps) :
    ∃ solution, Worklist.run graph analysis steps worklist = .ok solution := by
  induction steps generalizing worklist with
  | zero =>
      obtain ⟨solution, pending⟩ := worklist
      cases pending with
      | nil => exact ⟨solution, rfl⟩
      | cons block pending =>
          obtain ⟨next, -, -, hlt⟩ := hd.step h hinside hdependents hstart
          omega
  | succ steps ih =>
      obtain ⟨solution, pending⟩ := worklist
      cases pending with
      | nil => exact ⟨solution, rfl⟩
      | cons block pending =>
          obtain ⟨next, hnext, hd', hlt⟩ := hd.step h hinside hdependents hstart
          rw [Worklist.run, hnext]
          exact ih hd' (by omega)

end

end Worklist

section

variable {σ φ : Type} {analysis : Analysis σ} {graph : FlowGraph} {good : σ → Prop}
  {holds : φ → σ → Bool} {facts : List φ}

/-- A closed graph is walked over as a whole. -/
theorem Analysis.mem_order_iff (hclosed : graph.Closed) (block : Block) :
    block ∈ analysis.order graph ↔ block ∈ graph.blocks := by
  refine ⟨fun hmem => ?_, analysis.mem_order graph⟩
  rw [Analysis.order] at hmem
  cases hdirection : analysis.direction with
  | forward =>
      rw [hdirection] at hmem
      exact FlowGraph.mem_blocks_of_reversePostorder hclosed hmem
  | backward =>
      rw [hdirection] at hmem
      exact FlowGraph.mem_blocks_of_postorder hclosed hmem

/-- The dependents of a block are blocks of the graph. -/
theorem Analysis.dependents_inside (hclosed : graph.Closed) {block other : Block}
    (hblock : block ∈ graph.blocks) (hother : other ∈ analysis.dependents graph block) :
    other ∈ graph.blocks := by
  rw [Analysis.dependents] at hother
  cases hdirection : analysis.direction with
  | forward =>
      rw [hdirection] at hother
      exact hclosed block hblock other hother
  | backward =>
      rw [hdirection] at hother
      exact (List.mem_filter.mp hother).1

/-- The order is no longer than the graph. -/
theorem Analysis.length_order_le (hclosed : graph.Closed) :
    (analysis.order graph).length ≤ graph.blocks.length := by
  have hnodup : (analysis.order graph).Nodup := by
    rw [Analysis.order]
    cases analysis.direction with
    | forward => exact graph.nodup_reversePostorder
    | backward => exact graph.postorder_perm.nodup_iff.mpr graph.nodup_finishOrder
  exact hnodup.length_le_of_subset fun block hblock =>
    (Analysis.mem_order_iff hclosed block).mp hblock

/-- **THE SOLVER COMES TO AN END**: every block is evaluated once, and again
    only when the output of a neighbour has changed, which happens at most once
    per fact and block. -/
theorem solve_of_descends [DecidableEq σ] (h : analysis.Descends graph good holds facts)
    (hclosed : graph.Closed)
    (hstart : analysis.Fed graph ∨ ∀ fact, holds fact analysis.bottom = true) {steps : Nat}
    (hsteps : graph.blocks.length + graph.blocks.length * (graph.blocks.length *
      (facts.length + 1)) ≤ steps) : ∃ solution, solve steps graph analysis = .ok solution := by
  have hd : Worklist.Descending analysis graph good holds
      ⟨{}, analysis.order graph⟩ := by
    have hnone : ∀ {block : Block} {output : σ} {P : Prop},
        ({} : Solution σ).outputs[block]? = some output → P := fun hout => by cases hout
    refine ⟨⟨[], ⟨analysis.order graph, [], rfl, (List.append_nil _).symm, fun _ h => by cases h⟩,
      fun block => ⟨fun hsome => (by cases hsome), fun hmem => (by cases hmem)⟩⟩,
      fun hout => hnone hout, fun hout => hnone hout, fun hout => hnone hout⟩
  refine hd.run h (Analysis.mem_order_iff hclosed)
    (fun block hblock other hother => Analysis.dependents_inside hclosed hblock hother) hstart
    (Nat.le_trans ?_ hsteps)
  have hleft : Worklist.changesLeft holds facts ({} : Solution σ) = fun _ => facts.length + 1 := by
    funext block
    rfl
  rw [Worklist.distance, hleft, List.map_const', List.sum_replicate_nat]
  exact Nat.add_le_add_right (Analysis.length_order_le hclosed) _

end

/-! ## Going on forever -/

namespace Worklist

variable {σ : Type} [DecidableEq σ] {graph : FlowGraph} {analysis : Analysis σ}

/-- Evaluates some number of blocks, if that many come up. -/
def advance (graph : FlowGraph) (analysis : Analysis σ) : Nat → Worklist σ → Option (Worklist σ)
  | 0, worklist => some worklist
  | _ + 1, ⟨_, []⟩ => none
  | count + 1, ⟨solution, block :: pending⟩ =>
    match step graph analysis solution block pending with
    | .ok next => advance graph analysis count next
    | .error _ => none

/-- What the solver will do depends on the outputs and on what is pending. -/
def Like (worklist other : Worklist σ) : Prop :=
  other.pending = worklist.pending ∧ other.solution.outputs = worklist.solution.outputs

/-- Solvers that are alike step alike. -/
theorem step_like {solution other : Solution σ} (h : other.outputs = solution.outputs)
    (block : Block) (pending : List Block) :
    (∃ fault, step graph analysis solution block pending = .error fault ∧
      step graph analysis other block pending = .error fault) ∨
    ∃ next next', step graph analysis solution block pending = .ok next ∧
      step graph analysis other block pending = .ok next' ∧ Like next next' := by
  have hjoin : analysis.joinInputs graph other block = analysis.joinInputs graph solution block :=
    analysis.joinInputs_congr graph fun _ _ => by rw [h]
  rw [step, step, hjoin]
  cases analysis.transfer block (analysis.joinInputs graph solution block) with
  | error fault => exact Or.inl ⟨fault, rfl, rfl⟩
  | ok output =>
      right
      dsimp only [bind, Except.bind]
      rw [h]
      by_cases hsame : solution.outputs[block]? = some output
      · rw [if_pos hsame, if_pos hsame]
        exact ⟨_, _, rfl, rfl, rfl, rfl⟩
      · rw [if_neg hsame, if_neg hsame]
        exact ⟨_, _, rfl, rfl, rfl, rfl⟩

/-- Solvers that are alike fail alike. -/
theorem run_like {worklist other : Worklist σ} (h : Like worklist other) {steps : Nat}
    {fault : Fault}
    (hrun : run graph analysis steps worklist = .error fault) :
    run graph analysis steps other = .error fault := by
  -- by induction on the steps, with both worklists pending the same blocks
  induction steps generalizing worklist other with
  | zero =>
      obtain ⟨solution, pending⟩ := worklist
      obtain ⟨solution', pending'⟩ := other
      obtain ⟨hpending, -⟩ := h
      replace hpending : pending' = pending := hpending
      subst hpending
      cases pending' with
      | nil => cases hrun
      | cons block pending => exact hrun
  | succ steps ih =>
      obtain ⟨solution, pending⟩ := worklist
      obtain ⟨solution', pending'⟩ := other
      obtain ⟨hpending, houtputs⟩ := h
      replace hpending : pending' = pending := hpending
      replace houtputs : solution'.outputs = solution.outputs := houtputs
      subst hpending
      cases pending' with
      | nil => cases hrun
      | cons block pending =>
          rw [run] at hrun ⊢
          rcases step_like houtputs block pending with ⟨fault', hstep, hstep'⟩ |
            ⟨next, next', hstep, hstep', hlike⟩
          · rw [hstep] at hrun
            rw [hstep']
            exact hrun
          · rw [hstep] at hrun
            rw [hstep']
            exact ih hlike hrun

/-- A solver that still evaluates blocks has not come to an end. -/
theorem run_of_advance {count : Nat} {worklist next : Worklist σ}
    (h : advance graph analysis count worklist = some next) (steps : Nat) :
    run graph analysis steps worklist =
      if steps < count then .error .unsettled else run graph analysis (steps - count) next := by
  induction count generalizing worklist steps with
  | zero =>
      cases h
      rfl
  | succ count ih =>
      obtain ⟨solution, pending⟩ := worklist
      cases pending with
      | nil => cases h
      | cons block pending =>
          simp only [advance] at h
          cases hstep : step graph analysis solution block pending with
          | error fault => rw [hstep] at h; cases h
          | ok later =>
              rw [hstep] at h
              cases steps with
              | zero => rfl
              | succ steps =>
                  rw [run, hstep]
                  simp only [Nat.succ_lt_succ_iff, Nat.add_sub_add_right]
                  exact ih h steps

/-- A solver that comes back to where it was never comes to an end. -/
theorem unsettled_of_like {period : Nat} {worklist next : Worklist σ}
    (h : advance graph analysis (period + 1) worklist = some next) (hlike : Like next worklist)
    (steps : Nat) : run graph analysis steps worklist = .error .unsettled := by
  induction steps using Nat.strongRecOn with
  | ind steps ih =>
      rw [run_of_advance h]
      split
      · rfl
      · next hge =>
          refine run_like ⟨hlike.1.symm, hlike.2.symm⟩ (ih _ ?_)
          omega

/-- Whether the solver, after some evaluations, comes back to where it was. -/
def returns (graph : FlowGraph) (analysis : Analysis σ) (early period : Nat) : Bool :=
  match advance graph analysis early ⟨{}, analysis.order graph⟩ with
  | none => false
  | some worklist =>
    match advance graph analysis (period + 1) worklist with
    | none => false
    | some next =>
      worklist.pending = next.pending ∧ worklist.solution.outputs = next.solution.outputs

end Worklist

/-- **GOING ROUND IN CIRCLES**: no number of evaluations is enough for a solver
    that comes back to where it was. -/
theorem unsettled_of_returns {σ : Type} [DecidableEq σ] {graph : FlowGraph} {analysis : Analysis σ}
    {early period : Nat} (h : Worklist.returns graph analysis early period = true) (steps : Nat) :
    solve steps graph analysis = .error .unsettled := by
  rw [Worklist.returns] at h
  cases hearly : Worklist.advance graph analysis early ⟨{}, analysis.order graph⟩ with
  | none => rw [hearly] at h; cases h
  | some worklist =>
      rw [hearly] at h
      dsimp only at h
      cases hnext : Worklist.advance graph analysis (period + 1) worklist with
      | none => rw [hnext] at h; cases h
      | some next =>
          rw [hnext] at h
          have hlike : worklist.pending = next.pending ∧
            worklist.solution.outputs = next.solution.outputs := of_decide_eq_true h
          rw [solve, Worklist.run_of_advance hearly]
          split
          · rfl
          · exact Worklist.unsettled_of_like hnext hlike _

end DecafBackend
