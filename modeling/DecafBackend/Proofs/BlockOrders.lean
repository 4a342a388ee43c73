import Mathlib.Logic.Relation
import DecafBackend.Proofs.Reachability

/-! # The orders of blocks

    The depth-first search is a loop over a stack of open blocks, and that loop
    ends.  An edge that does not lead backwards in its order leads to a block
    that was still open, and an open block reaches every block above it on the
    stack.

    * `Traversal` — the search as a loop, one successor at a time
    * `runs_visit`, `runs_finishOrder` — the loop ends, with the order found by
      recursion
    * `Settles`, `visit_settles` — where the edges of finished blocks lead
    * `Ordered`, `ofBody_ordered` — what the orders of a body's graph satisfy -/

namespace DecafBackend.FlowGraph

/-- A block reaches another one along edges. -/
def Reaches (graph : FlowGraph) : Block → Block → Prop :=
  Relation.ReflTransGen fun block next => next ∈ graph.successors block

/-! ## The search as a loop -/

/-- A depth-first search in progress. -/
structure Traversal where
  /-- The blocks from which a search is still to be started. -/
  roots : List Block
  /-- The blocks that were seen and are not finished, the latest first, each
      with the successors that are left to be looked at. -/
  stack : List (Block × List Block) := []
  /-- What was seen and finished so far. -/
  search : Search := {}

namespace Traversal

variable (graph : FlowGraph)

/-- Opens a block, unless it was seen before. -/
def enter (block : Block) (state : Traversal) : Traversal :=
  if state.search.seen.contains block then state
  else
    { state with
      stack := (block, graph.successors block) :: state.stack
      search := { state.search with seen := block :: state.search.seen } }

/-- One round of the loop: the next root if nothing is open, the next successor
    of the latest open block, or the end of that block. -/
def step? (state : Traversal) : Option Traversal :=
  match state.stack with
  | [] =>
    match state.roots with
    | [] => none
    | root :: roots => some (enter graph root { state with roots })
  | (block, next :: rest) :: stack =>
    some (enter graph next { state with stack := (block, rest) :: stack })
  | (block, []) :: stack =>
    some { state with
      stack
      search := { state.search with finished := state.search.finished ++ [block] } }

/-- The loop goes from one state to another in some rounds. -/
def Runs : Traversal → Traversal → Prop :=
  Relation.ReflTransGen fun state next => step? graph state = some next

variable {graph}

/-- Looking at blocks one after the other, if opening one block comes to what a
    visit finds; `place` puts what is left to be looked at into a state. -/
theorem runs_foldl {depth : Nat} (place : List Block → Search → Traversal)
    (hplace : ∀ block blocks search,
      step? graph (place (block :: blocks) search) = some (enter graph block (place blocks search)))
    (hvisit : ∀ block blocks search, block ∈ graph.blocks → graph.unseen search ≤ depth →
      Runs graph (enter graph block (place blocks search))
        (place blocks (graph.visit depth search block)))
    {blocks : List Block} (hblocks : ∀ block ∈ blocks, block ∈ graph.blocks) {search : Search}
    (hunseen : graph.unseen search ≤ depth) :
    Runs graph (place blocks search) (place [] (blocks.foldl (graph.visit depth) search)) := by
  induction blocks generalizing search with
  | nil => exact .refl
  | cons block blocks ih =>
      have hfirst := hvisit block blocks search (hblocks block List.mem_cons_self) hunseen
      have hrest := ih (fun other hother => hblocks other (List.mem_cons_of_mem _ hother))
        (Nat.le_trans (unseen_le (visit_grows graph depth search block).seen) hunseen)
      exact .head (hplace block blocks search) (hfirst.trans hrest)

/-- **THE LOOP VISITS**: from where a block was opened it comes to what the
    visit of the block finds, with the same stack. -/
theorem runs_visit (hclosed : graph.Closed) {depth : Nat} {search : Search} {block : Block}
    (hblock : block ∈ graph.blocks) (hunseen : graph.unseen search ≤ depth)
    (roots : List Block) (stack : List (Block × List Block)) :
    Runs graph (enter graph block ⟨roots, stack, search⟩)
      ⟨roots, stack, graph.visit depth search block⟩ := by
  induction depth generalizing search block stack with
  | zero =>
      -- nothing is left to be seen
      have hseen : block ∈ search.seen := (visit_explores hclosed 0 search block hblock hunseen).2
      rw [enter, if_pos (List.contains_iff_mem.mpr hseen)]
      exact .refl
  | succ depth ih =>
      rw [enter, visit]
      dsimp only
      cases hseen : search.seen.contains block with
      | true => exact .refl
      | false =>
          -- the block becomes seen, which leaves less to visit for the blocks behind it
          rw [if_neg Bool.false_ne_true, if_neg Bool.false_ne_true]
          have hless : graph.unseen { search with seen := block :: search.seen } ≤ depth :=
            Nat.le_of_lt_succ (Nat.lt_of_lt_of_le (unseen_lt hblock hseen) hunseen)
          have hchildren := runs_foldl
            (fun nexts search => ⟨roots, (block, nexts) :: stack, search⟩)
            (fun _ _ _ => rfl) (fun next rest search hnext hunseen =>
              ih hnext hunseen ((block, rest) :: stack)) (hclosed block hblock) hless
          exact hchildren.tail rfl

/-- **THE LOOP ENDS** with the order that the recursion finds. -/
theorem runs_finishOrder (hclosed : graph.Closed) : ∃ state,
    Runs graph { roots := graph.blocks } state ∧ step? graph state = none ∧
      state.search.finished = graph.finishOrder := by
  have hruns := runs_foldl (fun roots search => ⟨roots, [], search⟩)
    (fun _ _ _ => rfl) (fun block roots search hblock hunseen =>
      runs_visit hclosed hblock hunseen roots []) (fun _ h => h)
    (show graph.unseen {} ≤ graph.blocks.length from List.countP_le_length)
  exact ⟨_, hruns, rfl, rfl⟩

end Traversal

/-! ## Where edges lead -/

variable {graph : FlowGraph}

/-- The edges of blocks that were finished one by one after `early` lead to
    blocks that were finished before, or to blocks that reach their source. -/
def Settles (graph : FlowGraph) (early blocks : List Block) : Prop :=
  ∀ before block after, blocks = before ++ block :: after →
    ∀ next ∈ graph.successors block, next ∈ early ++ before ∨ graph.Reaches next block

/-- No blocks are settled in any case. -/
theorem settles_nil (early : List Block) : graph.Settles early [] := by
  intro before block after h
  cases before <;> cases h

/-- Blocks that settle one after the other settle together. -/
theorem Settles.append {early first second : List Block} (h₁ : graph.Settles early first)
    (h₂ : graph.Settles (early ++ first) second) : graph.Settles early (first ++ second) := by
  intro before block after h next hnext
  rcases List.append_eq_append_iff.mp h with ⟨rest, hbefore, hsecond⟩ | ⟨rest, hfirst, hsecond⟩
  · rw [hbefore, ← List.append_assoc]
    exact h₂ rest block after hsecond next hnext
  · cases rest with
    | nil =>
        rw [List.append_nil] at hfirst
        have hsettled := h₂ [] block after hsecond.symm next hnext
        rw [hfirst, List.append_nil] at hsettled
        exact hsettled
    | cons other rest =>
        injection hsecond with hblock
        subst hblock
        exact h₁ before block rest hfirst next hnext

/-- A block alone is settled if what it leads to is finished or comes back to it. -/
theorem settles_singleton {early : List Block} {block : Block}
    (h : ∀ next ∈ graph.successors block, next ∈ early ∨ graph.Reaches next block) :
    graph.Settles early [block] := by
  intro before other after hsplit next hnext
  cases before with
  | nil =>
      injection hsplit with hblock
      subst hblock
      rw [List.append_nil]
      exact h next hnext
  | cons first before =>
      injection hsplit with _ hnil
      cases before <;> cases hnil

/-- A block was seen and is not finished. -/
def Search.Open (search : Search) (block : Block) : Prop :=
  block ∈ search.seen ∧ block ∉ search.finished

/-- Searching leaves no more blocks open than there were. -/
theorem Search.Grows.isOpen {early late : Search} (h : early.Grows late) {block : Block}
    (hopen : late.Open block) : early.Open block :=
  ⟨(h.settled block hopen.1).resolve_right hopen.2, fun hfinished =>
    hopen.2 (h.finished_mono hfinished)⟩

/-- What a search finishes more than was finished before is settled. -/
def Extends (graph : FlowGraph) (early late : Search) : Prop :=
  ∃ added, late.finished = early.finished ++ added ∧ graph.Settles early.finished added

/-- A search extends itself. -/
theorem Extends.refl (search : Search) : graph.Extends search search :=
  ⟨[], (List.append_nil _).symm, settles_nil _⟩

/-- Searches extend one another step by step. -/
theorem Extends.trans {a b c : Search} (h₁ : graph.Extends a b) (h₂ : graph.Extends b c) :
    graph.Extends a c := by
  obtain ⟨first, hfirst, hsettles₁⟩ := h₁
  obtain ⟨second, hsecond, hsettles₂⟩ := h₂
  refine ⟨first ++ second, by rw [hsecond, hfirst, List.append_assoc], hsettles₁.append ?_⟩
  exact hfirst ▸ hsettles₂

/-- Searches one after the other, from blocks that all open blocks reach. -/
theorem foldl_extends {depth : Nat}
    (hvisit : ∀ search block, block ∈ graph.blocks → graph.unseen search ≤ depth →
      (∀ other, search.Open other → graph.Reaches other block) →
      graph.Extends search (graph.visit depth search block))
    {blocks : List Block} (hblocks : ∀ block ∈ blocks, block ∈ graph.blocks) {search : Search}
    (hunseen : graph.unseen search ≤ depth)
    (hopen : ∀ other, search.Open other → ∀ block ∈ blocks, graph.Reaches other block) :
    graph.Extends search (blocks.foldl (graph.visit depth) search) := by
  induction blocks generalizing search with
  | nil => exact .refl search
  | cons block blocks ih =>
      have hgrows := visit_grows graph depth search block
      have hfirst := hvisit search block (hblocks block List.mem_cons_self) hunseen
        fun other hother => hopen other hother block List.mem_cons_self
      refine hfirst.trans (ih (fun other hother => hblocks other (List.mem_cons_of_mem _ hother))
        (Nat.le_trans (unseen_le hgrows.seen) hunseen) fun other hother next hnext => ?_)
      exact hopen other (hgrows.isOpen hother) next (List.mem_cons_of_mem _ hnext)

/-- **EDGES LEAD BACK OR TO OPEN BLOCKS**, if all open blocks reach the block at
    which the search starts. -/
theorem visit_settles (hclosed : graph.Closed) {depth : Nat} {search : Search} {block : Block}
    (hblock : block ∈ graph.blocks) (hunseen : graph.unseen search ≤ depth)
    (hopen : ∀ other, search.Open other → graph.Reaches other block) :
    graph.Extends search (graph.visit depth search block) := by
  induction depth generalizing search block with
  | zero => exact .refl search
  | succ depth ih =>
      rw [visit]
      cases hseen : search.seen.contains block with
      | true => exact .refl search
      | false =>
          rw [if_neg Bool.false_ne_true]
          have hless : graph.unseen { search with seen := block :: search.seen } ≤ depth :=
            Nat.le_of_lt_succ (Nat.lt_of_lt_of_le (unseen_lt hblock hseen) hunseen)
          -- the block itself is open now
          have hreaches : ∀ other,
              Search.Open { search with seen := block :: search.seen } other →
              graph.Reaches other block := by
            rintro other ⟨hother, hnot⟩
            rcases List.mem_cons.mp hother with rfl | hother
            · exact .refl
            · exact hopen other ⟨hother, hnot⟩
          obtain ⟨added, hadded, hsettles⟩ := foldl_extends
            (fun search next hnext hunseen hopen => ih hnext hunseen hopen)
            (hclosed block hblock) hless fun other hother next hnext =>
              (hreaches other hother).tail hnext
          have hgrows := foldl_grows (visit_grows graph depth) (graph.successors block)
            { search with seen := block :: search.seen }
          obtain ⟨-, hall⟩ := foldl_explores (visit_explores hclosed depth)
            (hclosed block hblock) hless
          refine ⟨added ++ [block], ?_, hsettles.append (settles_singleton fun next hnext => ?_)⟩
          · dsimp only at hadded ⊢
            rw [hadded, List.append_assoc]
          -- a successor is finished by now, or still open, and open blocks reach this one
          · rw [← hadded]
            by_cases hfinished : next ∈ ((graph.successors block).foldl (graph.visit depth)
                { search with seen := block :: search.seen }).finished
            · exact Or.inl hfinished
            · exact Or.inr (hreaches next (hgrows.isOpen ⟨hall next hnext, hfinished⟩))

/-- The order in which blocks are finished is settled from its start. -/
theorem finishOrder_settles (hclosed : graph.Closed) : graph.Settles [] graph.finishOrder := by
  obtain ⟨added, hadded, hsettles⟩ := foldl_extends
    (fun search block hblock hunseen hopen => visit_settles hclosed hblock hunseen hopen)
    (fun _ h => h) (show graph.unseen {} ≤ graph.blocks.length from List.countP_le_length)
    fun other hother => by cases hother.1
  rw [finishOrder, hadded]
  exact hsettles

/-! ## The orders -/

/-- An element of the front comes before what is behind it. -/
theorem sublist_split {α : Type} {before after : List α} {a b : α} (ha : a ∈ before) :
    [a, b].Sublist (before ++ b :: after) :=
  (List.singleton_sublist.mpr ha).append (List.singleton_sublist.mpr List.mem_cons_self)

/-- An edge leads forward in the reverse order, unless its target reaches its
    source, or the entry reaches its target but not its source. -/
theorem reversePostorder_edge (hclosed : graph.Closed) {entry : Block}
    (hentry : graph.entry? = some entry) {block next : Block} (hblock : block ∈ graph.blocks)
    (hnext : next ∈ graph.successors block) :
    [block, next].Sublist graph.reversePostorder ∨ graph.Reaches next block ∨
      (¬ graph.Reached block ∧ graph.Reached next) := by
  obtain ⟨added, others, horder, hpost, -, hreached, hothers⟩ := postorder_split hclosed hentry
  have hsettles := finishOrder_settles hclosed
  rw [horder] at hsettles
  have hreverse : ∀ {before after : List Block}, graph.postorder = before ++ block :: after →
      next ∈ before → [block, next].Sublist graph.reversePostorder := by
    intro before after hsplit hmem
    rw [reversePostorder, hsplit]
    exact (sublist_split hmem).reverse
  have hmem : block ∈ others ++ (added ++ [entry]) := hpost ▸ mem_postorder hblock
  rcases List.mem_append.mp hmem with hmem | hmem
  · -- the entry does not reach the block
    obtain ⟨before, after, hsplit⟩ := List.append_of_mem hmem
    rcases hsettles ((added ++ [entry]) ++ before) block after
        (by rw [hsplit, ← List.append_assoc]) next hnext with hfinished | hreaches
    · rw [List.nil_append] at hfinished
      rcases List.mem_append.mp hfinished with htree | hbefore
      · exact Or.inr (Or.inr ⟨hothers block hmem, hreached next htree⟩)
      · exact Or.inl (hreverse (by rw [hpost, hsplit, List.append_assoc]; rfl) hbefore)
    · exact Or.inr (Or.inl hreaches)
  -- the entry reaches the block, so it is in the part that is finished first
  · obtain ⟨before, after, hsplit⟩ := List.append_of_mem hmem
    rcases hsettles before block (after ++ others)
        (by rw [hsplit, List.append_assoc]; rfl) next hnext with hfinished | hreaches
    · rw [List.nil_append] at hfinished
      exact Or.inl (hreverse (by rw [hpost, hsplit, ← List.append_assoc])
        (List.mem_append_right others hfinished))
    · exact Or.inr (Or.inl hreaches)

/-- What the orders of the blocks of a body satisfy. -/
structure Ordered (body : Body) (graph : FlowGraph) : Prop where
  /-- The search ends.  The post-order is the order in which it finishes blocks,
      with the blocks up to the entry moved behind the others. -/
  found : ∃ state tree others, Traversal.Runs graph { roots := body.blockKeys } state ∧
    Traversal.step? graph state = none ∧ state.search.finished = tree ++ others ∧
    tree.getLast? = body.entry? ∧ graph.postorder = others ++ tree
  /-- Every block of the body occurs, and occurs once. -/
  perm : graph.postorder.Perm body.blockKeys
  /-- The reverse order starts with the entry. -/
  entry : graph.reversePostorder.head? = body.entry?
  /-- What the entry reaches comes before all that it does not reach. -/
  reachedFirst : ∃ reached others, graph.reversePostorder = reached ++ others ∧
    (∀ block ∈ reached, graph.Reached block) ∧ ∀ block ∈ others, ¬ graph.Reached block
  /-- An edge leads forward in the reverse order, unless it leads back to a
      block that reaches its source, or into what the entry reaches. -/
  edge : ∀ block ∈ body.blockKeys, ∀ next ∈ graph.successors block,
    [block, next].Sublist graph.reversePostorder ∨ graph.Reaches next block ∨
      (¬ graph.Reached block ∧ graph.Reached next)
  /-- A block that the entry reaches comes behind one of its predecessors. -/
  fed : ∀ before block after, graph.reversePostorder = before ++ block :: after →
    graph.Reached block → body.entry? = some block ∨
      ∃ source ∈ before, source ∈ graph.predecessors block

/-- The entry of the graph is the body's. -/
theorem entry?_eq {body : Body} (hflow : graph.Of body) : graph.entry? = body.entry? := by
  rw [FlowGraph.entry?, hflow.blocks, Body.blockKeys, List.head?_map, List.head?_range, Body.entry?,
    Array.isEmpty]
  split <;> simp_all

/-- Every block is in the postorder once. -/
theorem postorder_perm_blocks (hclosed : graph.Closed) (hnodup : graph.blocks.Nodup) :
    graph.postorder.Perm graph.blocks :=
  (List.perm_ext_iff_of_nodup (graph.postorder_perm.nodup_iff.mpr graph.nodup_finishOrder)
    hnodup).mpr fun _ => ⟨mem_blocks_of_postorder hclosed, mem_postorder⟩

/-- The orders of a graph whose edges stay inside it. -/
theorem ordered_of_closed {body : Body} (hflow : graph.Of body) (hclosed : graph.Closed) :
    graph.Ordered body := by
  obtain ⟨state, hruns, hended, hfound⟩ := Traversal.runs_finishOrder hclosed
  have hnodup : graph.blocks.Nodup := hflow.blocks ▸ body.nodup_blockKeys
  have hperm := postorder_perm_blocks hclosed hnodup
  rw [hflow.blocks] at hruns
  -- a body without blocks has nothing to order
  cases hentry : graph.entry? with
  | none =>
      have hnone : graph.blocks = [] := List.head?_eq_none_iff.mp hentry
      have horder : graph.postorder = [] := List.perm_nil.mp (hnone ▸ hperm)
      have hfinished : graph.finishOrder = [] :=
        List.perm_nil.mp (horder ▸ graph.postorder_perm.symm)
      have hreverse : graph.reversePostorder = [] := by rw [reversePostorder, horder]; rfl
      have hbody : body.entry? = none := entry?_eq hflow ▸ hentry
      refine ⟨⟨state, [], [], hruns, hended, by rw [hfound, hfinished]; rfl, hbody.symm, horder⟩,
        hflow.blocks ▸ hperm, by rw [hreverse, hbody]; rfl, ⟨[], [], hreverse, ?_, ?_⟩,
        fun block hblock => ?_, fun before block after hsplit => ?_⟩
      · intro block hblock
        cases hblock
      · intro block hblock
        cases hblock
      · rw [← hflow.blocks, hnone] at hblock
        cases hblock
      · rw [hreverse] at hsplit
        cases before <;> cases hsplit
  -- otherwise the order is what the entry reaches, followed by the rest
  | some entry =>
      obtain ⟨added, others, horder, hpost, -, hreached, hothers⟩ := postorder_split hclosed hentry
      have hbody : body.entry? = some entry := entry?_eq hflow ▸ hentry
      have hreverse : graph.reversePostorder = (added ++ [entry]).reverse ++ others.reverse := by
        rw [reversePostorder, hpost, List.reverse_append]
      refine ⟨⟨state, added ++ [entry], others, hruns, hended, hfound.trans horder, ?_, hpost⟩,
        hflow.blocks ▸ hperm, ?_, ⟨_, _, hreverse, ?_, ?_⟩, fun block hblock next hnext => ?_,
        fun before block after hsplit hblock => ?_⟩
      · rw [List.getLast?_concat, hbody]
      · rw [hreverse, List.reverse_append, hbody]
        rfl
      · exact fun block hblock => hreached block (List.mem_reverse.mp hblock)
      · exact fun block hblock => hothers block (List.mem_reverse.mp hblock)
      · exact reversePostorder_edge hclosed hentry (hflow.blocks ▸ hblock) hnext
      · refine (fed_reversePostorder hclosed hentry hsplit hblock).imp (fun heq => ?_) id
        rw [hbody, heq]

/-- **THE ORDERS OF BLOCKS**: a body has a flow graph if and only if the edges of
    its blocks can be looked up and lead to its blocks.  The search of the graph
    then ends, and orders the blocks as described. -/
theorem ofBody_ordered (body : Body) :
    ((∃ graph, FlowGraph.ofBody body = .ok graph) ↔ ∀ block ∈ body.blockKeys, ∃ targets,
      body.successors block = .ok targets ∧ ∀ target ∈ targets, target ∈ body.blockKeys) ∧
    ∀ graph, FlowGraph.ofBody body = .ok graph → graph.Ordered body := by
  refine ⟨⟨?_, fun h => FlowGraph.ofBody_ok fun block hblock => ?_⟩, fun graph hgraph =>
    ordered_of_closed (of_ofBody hgraph) (closed_of_ofBody hgraph)⟩
  · rintro ⟨graph, hgraph⟩ block hblock
    obtain ⟨hsuccessors, hinside⟩ := successors_of_ofBody hgraph (Body.mem_blockKeys.mp hblock)
    exact ⟨_, hsuccessors, fun target htarget => Body.mem_blockKeys.mpr (hinside target htarget)⟩
  · obtain ⟨targets, htargets, hinside⟩ := h block hblock
    exact ⟨targets, htargets, fun target htarget => Body.mem_blockKeys.mp (hinside target htarget)⟩

/-- A body with a loop that is entered at both of its blocks, a block that leads
    to itself, and a loop that the entry does not reach but that leads into the
    first one. -/
def tangledLoops : Body where
  name := ⟨0⟩
  records := #[.load ⟨0⟩, .branch ⟨0⟩ ⟨0⟩, .jump ⟨0⟩, .load ⟨0⟩, .branch ⟨3⟩ ⟨1⟩, .load ⟨0⟩,
    .branch ⟨5⟩ ⟨2⟩, .ret none, .jump ⟨3⟩, .load ⟨0⟩, .branch ⟨9⟩ ⟨0⟩, .jump ⟨4⟩]
  locations := #[.localVar ⟨1⟩]
  labels := #[some ⟨2⟩, some ⟨1⟩, some ⟨3⟩, some ⟨6⟩, some ⟨5⟩]
  blocks := #[⟨none, [⟨1⟩]⟩, ⟨some ⟨1⟩, [⟨2⟩]⟩, ⟨some ⟨0⟩, [⟨4⟩]⟩, ⟨some ⟨2⟩, [⟨6⟩]⟩, ⟨none, [⟨7⟩]⟩,
    ⟨some ⟨4⟩, [⟨8⟩]⟩, ⟨some ⟨3⟩, [⟨10⟩]⟩, ⟨none, [⟨11⟩]⟩]

/-- The entry reaches the target of the edge from the second loop into the first
    one, but not its source. -/
theorem tangledLoops_ordered : ∃ graph, FlowGraph.ofBody tangledLoops = .ok graph ∧
    graph.reversePostorder = [⟨0⟩, ⟨2⟩, ⟨3⟩, ⟨4⟩, ⟨1⟩, ⟨5⟩, ⟨6⟩, ⟨7⟩] ∧
    graph.Ordered tangledLoops := by
  obtain ⟨graph, hgraph, htest⟩ := @FlowGraph.exists_of_test tangledLoops
    (fun graph => graph.reversePostorder = [⟨0⟩, ⟨2⟩, ⟨3⟩, ⟨4⟩, ⟨1⟩, ⟨5⟩, ⟨6⟩, ⟨7⟩])
    (by decide +kernel)
  exact ⟨graph, hgraph, of_decide_eq_true htest, (ofBody_ordered tangledLoops).2 graph hgraph⟩

end DecafBackend.FlowGraph
