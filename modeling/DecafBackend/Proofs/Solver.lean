import DecafBackend.Flow.Solver
import DecafBackend.Proofs.Maps
import DecafBackend.Proofs.WellFormed

/-! # What the solver computes

    The order in which blocks are evaluated first has every block once.  When
    no block is pending any more, every block has an input and an output, its
    input is the join of the outputs around it, and its output is the transfer
    of its input.

    * `mem_postorder`, `postorder_perm` — the order of blocks
    * `Settled`, `settled_of_solve` — a solution is a fixpoint
    * `solve_invariant` — what joins and transfers keep holds of a solution -/

namespace DecafBackend

/-! ## Depth-first order -/

namespace FlowGraph

/-- What a search adds: every block it sees is finished in the end, and once
    only. -/
structure Search.Grows (early late : Search) : Prop where
  seen : ∀ block ∈ early.seen, block ∈ late.seen
  finished : ∃ added, late.finished = early.finished ++ added ∧ added.Nodup ∧
    ∀ block ∈ added, block ∉ early.seen ∧ block ∈ late.seen
  settled : ∀ block ∈ late.seen, block ∈ early.seen ∨ block ∈ late.finished

namespace Search.Grows

theorem refl (search : Search) : Grows search search where
  seen _ h := h
  finished := ⟨[], (List.append_nil _).symm, List.nodup_nil, nofun⟩
  settled _ h := Or.inl h

/-- What was finished stays finished. -/
theorem finished_mono {a b : Search} (h : Grows a b) {block : Block} (hblock : block ∈ a.finished) :
    block ∈ b.finished := by
  obtain ⟨added, hadded, -⟩ := h.finished
  rw [hadded]
  exact List.mem_append_left _ hblock

/-- What one search adds to another adds to both. -/
theorem trans {a b c : Search} (h₁ : Grows a b) (h₂ : Grows b c) : Grows a c where
  seen block h := h₂.seen block (h₁.seen block h)
  finished := by
    obtain ⟨first, hfirst, hnodup₁, hnew₁⟩ := h₁.finished
    obtain ⟨second, hsecond, hnodup₂, hnew₂⟩ := h₂.finished
    refine ⟨first ++ second, by rw [hsecond, hfirst, List.append_assoc], ?_, ?_⟩
    · rw [List.nodup_append]
      refine ⟨hnodup₁, hnodup₂, ?_⟩
      rintro x hx y hy rfl
      exact (hnew₂ x hy).1 (hnew₁ x hx).2
    · intro block hblock
      rcases List.mem_append.mp hblock with hblock | hblock
      · exact ⟨(hnew₁ block hblock).1, h₂.seen block (hnew₁ block hblock).2⟩
      · exact ⟨fun h => (hnew₂ block hblock).1 (h₁.seen block h), (hnew₂ block hblock).2⟩
  settled block h := by
    rcases h₂.settled block h with h | h
    · rcases h₁.settled block h with h | h
      · exact Or.inl h
      · exact Or.inr (h₂.finished_mono h)
    · exact Or.inr h

end Search.Grows

/-- Searches add block by block. -/
theorem foldl_grows {step : Search → Block → Search}
    (hstep : ∀ search block, Search.Grows search (step search block)) (blocks : List Block)
    (search : Search) : Search.Grows search (blocks.foldl step search) := by
  induction blocks generalizing search with
  | nil => exact Search.Grows.refl search
  | cons block rest ih => exact (hstep search block).trans (ih _)

/-- **A VISIT ADDS** blocks that were not seen, each once. -/
theorem visit_grows (graph : FlowGraph) (depth : Nat) (search : Search) (block : Block) :
    Search.Grows search (graph.visit depth search block) := by
  induction depth generalizing search block with
  | zero => exact Search.Grows.refl search
  | succ depth ih =>
      rw [visit]
      by_cases hseen : search.seen.contains block = true
      · rw [if_pos hseen]
        exact Search.Grows.refl search
      · rw [if_neg hseen]
        have hnot : block ∉ search.seen := fun h => hseen (List.contains_iff_mem.mpr h)
        have hchildren := foldl_grows ih (graph.successors block)
          { search with seen := block :: search.seen }
        -- the block is finished behind all that it leads to
        obtain ⟨added, hadded, hnodup, hnew⟩ := hchildren.finished
        dsimp only
        refine ⟨fun other h => hchildren.seen other (List.mem_cons_of_mem _ h), ?_, ?_⟩
        · refine ⟨added ++ [block], by rw [hadded, List.append_assoc], ?_, ?_⟩
          · rw [List.nodup_append]
            refine ⟨hnodup, by simp, ?_⟩
            rintro x hx y hy rfl
            rw [List.mem_singleton] at hy
            subst hy
            exact (hnew x hx).1 List.mem_cons_self
          · intro other hother
            rcases List.mem_append.mp hother with hother | hother
            · exact ⟨fun h => (hnew other hother).1 (List.mem_cons_of_mem _ h),
                (hnew other hother).2⟩
            · rw [List.mem_singleton] at hother
              subst hother
              exact ⟨hnot, hchildren.seen other List.mem_cons_self⟩
        · intro other hother
          rcases hchildren.settled other hother with h | h
          · rcases List.mem_cons.mp h with rfl | h
            · exact Or.inr (List.mem_append_right _ List.mem_cons_self)
            · exact Or.inl h
          · exact Or.inr (List.mem_append_left _ h)

/-- A search that may go on sees the block it starts from. -/
theorem mem_seen_visit (graph : FlowGraph) (depth : Nat) (search : Search) (block : Block) :
    block ∈ (graph.visit (depth + 1) search block).seen := by
  rw [visit]
  by_cases hseen : search.seen.contains block = true
  · rw [if_pos hseen]
    exact List.contains_iff_mem.mp hseen
  · rw [if_neg hseen]
    exact (foldl_grows (visit_grows graph depth) (graph.successors block)
      { search with seen := block :: search.seen }).seen block List.mem_cons_self

/-- Visited blocks are seen. -/
theorem mem_seen_foldl (graph : FlowGraph) (depth : Nat) {blocks : List Block} {block : Block}
    (hblock : block ∈ blocks) (search : Search) :
    block ∈ (blocks.foldl (graph.visit (depth + 1)) search).seen := by
  induction blocks generalizing search with
  | nil => cases hblock
  | cons first rest ih =>
      rcases List.mem_cons.mp hblock with rfl | hrest
      · exact (foldl_grows (visit_grows graph (depth + 1)) rest _).seen block
          (mem_seen_visit graph depth search block)
      · exact ih hrest _

/-- Every block finishes. -/
theorem mem_finishOrder {graph : FlowGraph} {block : Block} (h : block ∈ graph.blocks) :
    block ∈ graph.finishOrder := by
  rw [finishOrder]
  obtain ⟨depth, hdepth⟩ : ∃ depth, graph.blocks.length = depth + 1 :=
    ⟨graph.blocks.length - 1, by have := List.length_pos_of_mem h; omega⟩
  rw [hdepth]
  have hgrows := foldl_grows (visit_grows graph (depth + 1)) graph.blocks {}
  exact (hgrows.settled block (mem_seen_foldl graph depth h {})).resolve_left nofun

/-- No block finishes twice. -/
theorem nodup_finishOrder (graph : FlowGraph) : graph.finishOrder.Nodup := by
  rw [finishOrder]
  obtain ⟨added, hadded, hnodup, -⟩ :=
    (foldl_grows (visit_grows graph graph.blocks.length) graph.blocks {}).finished
  rw [hadded]
  exact hnodup

/-- The order has the blocks that finish. -/
theorem postorder_perm (graph : FlowGraph) : graph.postorder.Perm graph.finishOrder := by
  rw [postorder]
  cases graph.entry? with
  | none => exact List.Perm.refl _
  | some entry =>
      dsimp only
      refine List.perm_append_comm.trans ?_
      rw [List.take_append_drop]

/-- Every block is in the order. -/
theorem mem_postorder {graph : FlowGraph} {block : Block} (h : block ∈ graph.blocks) :
    block ∈ graph.postorder := graph.postorder_perm.mem_iff.mpr (mem_finishOrder h)

theorem mem_reversePostorder {graph : FlowGraph} {block : Block} (h : block ∈ graph.blocks) :
    block ∈ graph.reversePostorder := List.mem_reverse.mpr (mem_postorder h)

/-- No block is twice in the reverse order. -/
theorem nodup_reversePostorder (graph : FlowGraph) : graph.reversePostorder.Nodup :=
  ((List.reverse_perm _).trans graph.postorder_perm).nodup_iff.mpr graph.nodup_finishOrder

end FlowGraph

/-! ## Joins -/

namespace Analysis

variable {σ : Type} (analysis : Analysis σ) (graph : FlowGraph)

/-- Every block is evaluated. -/
theorem mem_order {block : Block} (h : block ∈ graph.blocks) : block ∈ analysis.order graph := by
  rw [order]
  cases analysis.direction with
  | forward => exact FlowGraph.mem_reversePostorder h
  | backward => exact FlowGraph.mem_postorder h

/-- The blocks that a block's output enters are those whose input it enters. -/
theorem mem_dependents {block other : Block} (hblock : block ∈ graph.blocks)
    (hother : other ∈ analysis.neighbours graph block) :
    block ∈ analysis.dependents graph other := by
  rw [neighbours] at hother
  rw [dependents]
  cases hdirection : analysis.direction with
  | forward =>
      rw [hdirection] at hother
      exact List.contains_iff_mem.mp (List.mem_filter.mp hother).2
  | backward =>
      rw [hdirection] at hother
      exact List.mem_filter.mpr ⟨hblock, List.contains_iff_mem.mpr hother⟩

/-- The input of a block depends on the outputs of its neighbours. -/
theorem joinInputs_congr {solution solution' : Solution σ} {block : Block}
    (h : ∀ other ∈ analysis.neighbours graph block,
      solution'.outputs[other]? = solution.outputs[other]?) :
    analysis.joinInputs graph solution' block = analysis.joinInputs graph solution block := by
  have hcontributions : analysis.contributions graph solution' block =
      analysis.contributions graph solution block := by
    rw [contributions, contributions]
    congr 1
    generalize analysis.neighbours graph block = others at h
    induction others with
    | nil => rfl
    | cons other rest ih =>
        rw [List.filterMap_cons, List.filterMap_cons, h other List.mem_cons_self,
          ih fun other hother => h other (List.mem_cons_of_mem _ hother)]
  rw [joinInputs, joinInputs, hcontributions]

/-- What holds of all states that enter a block holds of their join. -/
theorem joinInputs_invariant {solution : Solution σ} {motive : σ → Prop} {block : Block}
    (hinitial : motive analysis.initial) (hbottom : motive analysis.bottom)
    (hjoin : ∀ a b, motive a → motive b → motive (analysis.join a b))
    (houtputs : ∀ {other : Block} {output : σ},
      solution.outputs[other]? = some output → motive output) :
    motive (analysis.joinInputs graph solution block) := by
  have hall : ∀ state ∈ analysis.contributions graph solution block, motive state := by
    intro state hstate
    rw [contributions, List.mem_append] at hstate
    rcases hstate with hstate | hstate
    · split at hstate
      · rw [List.mem_singleton] at hstate
        exact hstate ▸ hinitial
      · cases hstate
    · obtain ⟨other, -, hother⟩ := List.mem_filterMap.mp hstate
      exact houtputs hother
  rw [joinInputs]
  cases hcontributions : analysis.contributions graph solution block with
  | nil => exact hbottom
  | cons first rest =>
      rw [hcontributions] at hall
      have hrest : ∀ state ∈ rest, motive state :=
        fun state hstate => hall state (List.mem_cons_of_mem _ hstate)
      have hfirst := hall first List.mem_cons_self
      clear hall hcontributions
      dsimp only
      -- by induction on the states that are still to be joined
      induction rest generalizing first with
      | nil => exact hfirst
      | cons second rest ih =>
          exact ih (analysis.join first second)
            (fun state hstate => hrest state (List.mem_cons_of_mem _ hstate))
            (hjoin _ _ hfirst (hrest second List.mem_cons_self))

/-- What a join inherits from one of its sides holds of the join of all states
    that enter a block, if it holds of one of them; `inv` holds of all states. -/
theorem joinInputs_of_mem {solution : Solution σ} {inv motive : σ → Prop} {block : Block}
    {state : σ} (hinv : ∀ state ∈ analysis.contributions graph solution block, inv state)
    (hjoin : ∀ a b, inv a → inv b → inv (analysis.join a b))
    (hleft : ∀ a b, inv a → inv b → motive a → motive (analysis.join a b))
    (hright : ∀ a b, inv a → inv b → motive b → motive (analysis.join a b))
    (hmem : state ∈ analysis.contributions graph solution block) (hstate : motive state) :
    motive (analysis.joinInputs graph solution block) := by
  -- what holds of the states joined so far, or of one to come, holds at the end
  have hfold : ∀ (rest : List σ) (first : σ), inv first → (∀ state ∈ rest, inv state) →
      motive first ∨ (∃ state ∈ rest, motive state) →
      motive (rest.foldl analysis.join first) := by
    intro rest
    induction rest with
    | nil =>
        rintro first - - (h | ⟨_, h, -⟩)
        · exact h
        · cases h
    | cons second rest ih =>
        intro first hfirst hrest h
        have hsecond := hrest second List.mem_cons_self
        refine ih _ (hjoin _ _ hfirst hsecond)
          (fun state hstate => hrest state (List.mem_cons_of_mem _ hstate)) ?_
        rcases h with h | ⟨other, hother, h⟩
        · exact Or.inl (hleft _ _ hfirst hsecond h)
        · rcases List.mem_cons.mp hother with rfl | hother
          · exact Or.inl (hright _ _ hfirst hsecond h)
          · exact Or.inr ⟨other, hother, h⟩
  rw [joinInputs]
  cases hcontributions : analysis.contributions graph solution block with
  | nil => rw [hcontributions] at hmem; cases hmem
  | cons first rest =>
      rw [hcontributions] at hmem hinv
      refine hfold rest first (hinv first List.mem_cons_self)
        (fun state hstate => hinv state (List.mem_cons_of_mem _ hstate)) ?_
      rcases List.mem_cons.mp hmem with rfl | hmem
      · exact Or.inl hstate
      · exact Or.inr ⟨state, hmem, hstate⟩

end Analysis

/-! ## Fixpoints -/

/-- A block whose states fit those of its neighbours. -/
def Settled {σ : Type} (graph : FlowGraph) (analysis : Analysis σ) (solution : Solution σ)
    (block : Block) : Prop :=
  ∃ output, solution.inputs[block]? = some (analysis.joinInputs graph solution block) ∧
    analysis.transfer block (analysis.joinInputs graph solution block) = .ok output ∧
    solution.outputs[block]? = some output

namespace Worklist

variable {σ : Type} [DecidableEq σ] {graph : FlowGraph} {analysis : Analysis σ}

/-- What is pending after blocks were enqueued. -/
theorem mem_enqueue {pending blocks : List Block} {block : Block} :
    block ∈ enqueue pending blocks ↔ block ∈ pending ∨ block ∈ blocks := by
  rw [enqueue]
  induction blocks generalizing pending with
  | nil => simp
  | cons first rest ih =>
      rw [List.foldl_cons, ih]
      by_cases h : pending.contains first = true
      · rw [if_pos h, List.mem_cons]
        have hmem := List.contains_iff_mem.mp h
        constructor
        · rintro (h | h)
          · exact Or.inl h
          · exact Or.inr (Or.inr h)
        · rintro (h | rfl | h)
          · exact Or.inl h
          · exact Or.inl hmem
          · exact Or.inr h
      · rw [if_neg h, List.mem_append, List.mem_singleton, List.mem_cons, or_assoc]

/-- Every block is pending or settled. -/
def Covered (graph : FlowGraph) (analysis : Analysis σ) (worklist : Worklist σ) : Prop :=
  ∀ block ∈ graph.blocks, block ∈ worklist.pending ∨
    Settled graph analysis worklist.solution block

omit [DecidableEq σ] in
/-- An evaluation settles its block, and leaves another one settled that it does not feed. -/
theorem Settled.evaluated {solution next : Solution σ} {block other : Block} {output : σ}
    (htransfer : analysis.transfer block (analysis.joinInputs graph solution block) = .ok output)
    (hinputs :
      next.inputs = solution.inputs.insert block (analysis.joinInputs graph solution block))
    (hself : next.outputs[block]? = some output)
    (hothers : ∀ key, key ≠ block → next.outputs[key]? = solution.outputs[key]?)
    (hjoin : analysis.joinInputs graph next other = analysis.joinInputs graph solution other)
    (h : other ≠ block → Settled graph analysis solution other) :
    Settled graph analysis next other := by
  by_cases heq : other = block
  · subst heq
    refine ⟨output, ?_, hjoin ▸ htransfer, hself⟩
    rw [hinputs, hjoin]
    exact Std.ExtTreeMap.getElem?_insert_self
  · obtain ⟨kept, hinput, htransfer', houtput⟩ := h heq
    refine ⟨kept, ?_, hjoin ▸ htransfer', (hothers other heq).trans houtput⟩
    rw [hinputs, hjoin, Maps.getElem?_insert_ne heq]
    exact hinput

/-- An evaluation settles its block, and what it unsettles is pending. -/
theorem covered_step {solution : Solution σ} {block : Block} {pending : List Block}
    {next : Worklist σ} (h : Covered graph analysis ⟨solution, block :: pending⟩)
    (hstep : step graph analysis solution block pending = .ok next) :
    Covered graph analysis next := by
  have hsettled : ∀ {other}, other ∈ graph.blocks → other ∉ pending → other ≠ block →
      Settled graph analysis solution other := fun hother hpending hne =>
    (h _ hother).resolve_left fun hmem => (List.mem_cons.mp hmem).elim hne hpending
  rw [step] at hstep
  obtain ⟨output, houtput, hstep⟩ := Checked.bind_eq_ok hstep
  by_cases hsame : solution.outputs[block]? = some output
  · rw [if_pos hsame] at hstep
    cases hstep
    intro other hother
    by_cases hpending : other ∈ pending
    · exact Or.inl hpending
    · exact Or.inr (Settled.evaluated houtput rfl hsame (fun _ _ => rfl)
        (analysis.joinInputs_congr graph fun _ _ => rfl) (hsettled hother hpending))
  · rw [if_neg hsame] at hstep
    cases hstep
    intro other hother
    by_cases hpending : other ∈ enqueue pending (analysis.dependents graph block)
    · exact Or.inl hpending
    · obtain ⟨hpending, hdependent⟩ := not_or.mp (mt mem_enqueue.mpr hpending)
      -- the output that has changed does not enter this block
      have hoff : ∀ neighbour ∈ analysis.neighbours graph other, neighbour ≠ block := by
        rintro neighbour hneighbour rfl
        exact hdependent (analysis.mem_dependents graph hother hneighbour)
      refine Or.inr (Settled.evaluated houtput rfl Std.ExtTreeMap.getElem?_insert_self
        (fun _ => Maps.getElem?_insert_ne) ?_ (hsettled hother hpending))
      exact analysis.joinInputs_congr graph fun neighbour hneighbour =>
        Maps.getElem?_insert_ne (hoff neighbour hneighbour)

/-- **A RUN THAT ENDS SETTLES** every block. -/
theorem settled_of_run {steps : Nat} {worklist : Worklist σ} {solution : Solution σ}
    (h : Covered graph analysis worklist)
    (hrun : run graph analysis steps worklist = .ok solution) :
    ∀ block ∈ graph.blocks, Settled graph analysis solution block := by
  -- by induction on the steps, with what is not pending settled before each
  induction steps generalizing worklist with
  | zero =>
      obtain ⟨current, pending⟩ := worklist
      cases pending with
      | nil =>
          cases hrun
          exact fun block hblock => (h block hblock).resolve_left nofun
      | cons block pending => cases hrun
  | succ steps ih =>
      obtain ⟨current, pending⟩ := worklist
      cases pending with
      | nil =>
          cases hrun
          exact fun block hblock => (h block hblock).resolve_left nofun
      | cons block pending =>
          rw [run] at hrun
          obtain ⟨next, hnext, hrun⟩ := Checked.bind_eq_ok hrun
          exact ih (covered_step h hnext) hrun

/-- All states found so far satisfy a condition. -/
def Satisfies (motive : σ → Prop) (solution : Solution σ) : Prop :=
  (∀ {block : Block} {state : σ}, solution.inputs[block]? = some state → motive state) ∧
    ∀ {block : Block} {state : σ}, solution.outputs[block]? = some state → motive state

/-- What every evaluation preserves holds of the solution. -/
theorem satisfies_of_run {motive : σ → Prop} (hinitial : motive analysis.initial)
    (hbottom : motive analysis.bottom)
    (hjoin : ∀ a b, motive a → motive b → motive (analysis.join a b))
    (htransfer : ∀ block input output, motive input → analysis.transfer block input = .ok output →
      motive output)
    {steps : Nat} {worklist : Worklist σ} {solution : Solution σ}
    (h : Satisfies motive worklist.solution)
    (hrun : run graph analysis steps worklist = .ok solution) : Satisfies motive solution := by
  induction steps generalizing worklist with
  | zero =>
      obtain ⟨current, pending⟩ := worklist
      cases pending with
      | nil => cases hrun; exact h
      | cons block pending => cases hrun
  | succ steps ih =>
      obtain ⟨current, pending⟩ := worklist
      cases pending with
      | nil => cases hrun; exact h
      | cons block pending =>
          rw [run] at hrun
          obtain ⟨next, hnext, hrun⟩ := Checked.bind_eq_ok hrun
          refine ih ?_ hrun
          rw [step] at hnext
          obtain ⟨output, houtput, hnext⟩ := Checked.bind_eq_ok hnext
          have hin : motive (analysis.joinInputs graph current block) :=
            analysis.joinInputs_invariant graph hinitial hbottom hjoin h.2
          have hout := htransfer block _ output hin houtput
          -- the state that is put in has the property, so all of them have
          have hinsert : ∀ {states : Std.ExtTreeMap Block σ} {new : σ}, motive new →
              (∀ {block : Block} {state : σ}, states[block]? = some state → motive state) →
              ∀ {other : Block} {state : σ}, (states.insert block new)[other]? = some state →
                motive state := by
            intro states new hnew hstates other state hstate
            rw [Std.ExtTreeMap.getElem?_insert] at hstate
            split at hstate
            · cases hstate
              exact hnew
            · exact hstates hstate
          by_cases hsame : current.outputs[block]? = some output
          · rw [if_pos hsame] at hnext
            cases hnext
            exact ⟨hinsert hin h.1, h.2⟩
          · rw [if_neg hsame] at hnext
            cases hnext
            exact ⟨hinsert hin h.1, hinsert hout h.2⟩

end Worklist

section

variable {σ : Type} [DecidableEq σ] {graph : FlowGraph} {analysis : Analysis σ} {steps : Nat}
  {solution : Solution σ}

/-- **SOLUTIONS ARE FIXPOINTS**: every block of the graph is settled. -/
theorem settled_of_solve (h : solve steps graph analysis = .ok solution) {block : Block}
    (hblock : block ∈ graph.blocks) : Settled graph analysis solution block := by
  refine Worklist.settled_of_run ?_ h block hblock
  exact fun other hother => Or.inl (analysis.mem_order graph hother)

/-- What joins and transfers keep holds of every state of a solution. -/
theorem solve_invariant {motive : σ → Prop} (h : solve steps graph analysis = .ok solution)
    (hinitial : motive analysis.initial) (hbottom : motive analysis.bottom)
    (hjoin : ∀ a b, motive a → motive b → motive (analysis.join a b))
    (htransfer : ∀ block input output, motive input → analysis.transfer block input = .ok output →
      motive output) : Worklist.Satisfies motive solution := by
  refine Worklist.satisfies_of_run hinitial hbottom hjoin htransfer ?_ h
  constructor
  · intro block state hstate
    cases hstate
  · intro block state hstate
    cases hstate

end

end DecafBackend
