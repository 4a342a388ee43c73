import DecafBackend.Proofs.Solver

/-! # Blocks that the entry reaches

    A depth-first search that may go on for as many levels as there are blocks
    finds every block that the entry reaches.  It finishes a block before the
    one from which it was found, so in the reverse order every block that the
    entry reaches, but the entry, comes behind a predecessor.

    * `Reached`, `Closed` — reachable blocks, and graphs whose edges stay inside
    * `visit_adds` — a block is finished before one that leads to it
    * `visit_explores` — a search sees the successors of all that it sees
    * `fed_reversePostorder` — predecessors come first -/

namespace DecafBackend

/-- Fewer elements pass a test that is stricter for one of them. -/
theorem countP_lt_of_mem {α : Type} {strict loose : α → Bool} {l : List α} {a : α}
    (himp : ∀ b ∈ l, strict b = true → loose b = true) (ha : a ∈ l) (hloose : loose a = true)
    (hstrict : strict a = false) : l.countP strict < l.countP loose := by
  induction l with
  | nil => cases ha
  | cons first rest ih =>
      have hrest : rest.countP strict ≤ rest.countP loose :=
        List.countP_mono_left fun b hb => himp b (List.mem_cons_of_mem _ hb)
      rw [List.countP_cons, List.countP_cons]
      rcases List.mem_cons.mp ha with rfl | ha
      · rw [hstrict, hloose, if_neg Bool.false_ne_true, if_pos rfl]
        omega
      · have hlt := ih (fun b hb => himp b (List.mem_cons_of_mem _ hb)) ha
        cases hfirst : strict first with
        | false => rw [if_neg Bool.false_ne_true]; omega
        | true => rw [himp first List.mem_cons_self hfirst]; omega

namespace FlowGraph

variable {graph : FlowGraph}

/-- The entry reaches a block. -/
inductive Reached (graph : FlowGraph) : Block → Prop
  /-- The entry itself. -/
  | entry {block : Block} (h : graph.entry? = some block) : Reached graph block
  /-- A block that a reached one leads to. -/
  | next {block next : Block} (h : Reached graph block) (hnext : next ∈ graph.successors block) :
      Reached graph next

/-- Edges lead to blocks of the graph. -/
def Closed (graph : FlowGraph) : Prop :=
  ∀ block ∈ graph.blocks, ∀ next ∈ graph.successors block, next ∈ graph.blocks

/-! ## What is finished later -/

/-- In a list of blocks, each but the roots is a successor of a later one. -/
def Feeds (graph : FlowGraph) (roots blocks : List Block) : Prop :=
  ∀ before block after, blocks = before ++ block :: after →
    block ∈ roots ∨ ∃ source ∈ after, block ∈ graph.successors source

theorem feeds_nil (roots : List Block) : graph.Feeds roots [] := by
  intro before block after h
  cases before <;> cases h

/-- Two lists that are fed are fed one behind the other. -/
theorem Feeds.append {roots first second : List Block} (h₁ : graph.Feeds roots first)
    (h₂ : graph.Feeds roots second) : graph.Feeds roots (first ++ second) := by
  intro before block after h
  rcases List.append_eq_append_iff.mp h with ⟨rest, hbefore, hsecond⟩ | ⟨rest, hfirst, hsecond⟩
  · exact h₂ rest block after hsecond
  · cases rest with
    | nil =>
        rw [List.append_nil] at hfirst
        exact h₂ [] block after hsecond.symm
    | cons other rest =>
        injection hsecond with hblock hafter
        subst hblock
        rcases h₁ before block rest hfirst with hroot | ⟨source, hsource, hnext⟩
        · exact Or.inl hroot
        · exact Or.inr ⟨source, hafter ▸ List.mem_append_left _ hsource, hnext⟩

/-- More roots feed the same blocks. -/
theorem Feeds.mono {roots roots' blocks : List Block} (h : graph.Feeds roots blocks)
    (hroots : ∀ block ∈ roots, block ∈ roots') : graph.Feeds roots' blocks := by
  intro before block after hsplit
  exact (h before block after hsplit).imp (hroots block) id

/-- The roots of a list are successors of a block that comes behind it. -/
theorem Feeds.concat {block : Block} {blocks : List Block}
    (h : graph.Feeds (graph.successors block) blocks) :
    graph.Feeds [block] (blocks ++ [block]) := by
  intro before other after hsplit
  rcases List.append_eq_append_iff.mp hsplit with ⟨rest, hbefore, hlast⟩ | ⟨rest, hblocks, hlast⟩
  · -- the last one is the block itself
    cases rest with
    | nil =>
        injection hlast with hother
        exact Or.inl (hother ▸ List.mem_cons_self)
    | cons first rest =>
        injection hlast with _ hnil
        cases rest <;> cases hnil
  · cases rest with
    | nil =>
        injection hlast with hother
        exact Or.inl (hother ▸ List.mem_cons_self)
    | cons first rest =>
        injection hlast with hfirst hafter
        subst hfirst
        rw [hafter]
        rcases h before other rest hblocks with hroot | ⟨source, hsource, hnext⟩
        · exact Or.inr ⟨block, List.mem_append_right _ List.mem_cons_self, hroot⟩
        · exact Or.inr ⟨source, List.mem_append_left _ hsource, hnext⟩

/-- What a search finishes, as far as it was not finished before. -/
def Adds (graph : FlowGraph) (roots : List Block) (early late : Search) : Prop :=
  ∃ added, late.finished = early.finished ++ added ∧ graph.Feeds roots added

/-- A search adds to what is finished, block by block. -/
theorem foldl_adds {step : Search → Block → Search}
    (hstep : ∀ search block, graph.Adds [block] search (step search block)) (blocks : List Block)
    (search : Search) : graph.Adds blocks search (blocks.foldl step search) := by
  induction blocks generalizing search with
  | nil => exact ⟨[], (List.append_nil _).symm, feeds_nil []⟩
  | cons block rest ih =>
      obtain ⟨first, hfirst, hfeeds⟩ := hstep search block
      obtain ⟨second, hsecond, hrest⟩ := ih (step search block)
      refine ⟨first ++ second, ?_, Feeds.append ?_ ?_⟩
      · rw [List.foldl_cons, hsecond, hfirst, List.append_assoc]
      · exact hfeeds.mono fun other hother => List.mem_singleton.mp hother ▸ List.mem_cons_self
      · exact hrest.mono fun other hother => List.mem_cons_of_mem _ hother

/-- **A BLOCK IS FINISHED BEFORE THE ONE IT WAS FOUND FROM**. -/
theorem visit_adds (graph : FlowGraph) (depth : Nat) (search : Search) (block : Block) :
    graph.Adds [block] search (graph.visit depth search block) := by
  induction depth generalizing search block with
  | zero => exact ⟨[], (List.append_nil _).symm, feeds_nil [block]⟩
  | succ depth ih =>
      rw [visit]
      by_cases hseen : search.seen.contains block = true
      · rw [if_pos hseen]
        exact ⟨[], (List.append_nil _).symm, feeds_nil [block]⟩
      · rw [if_neg hseen]
        obtain ⟨added, hadded, hfeeds⟩ := foldl_adds ih (graph.successors block)
          { search with seen := block :: search.seen }
        refine ⟨added ++ [block], ?_, hfeeds.concat⟩
        dsimp only at hadded ⊢
        rw [hadded, List.append_assoc]

/-! ## What is seen -/

/-- The number of blocks that were not seen yet. -/
def unseen (graph : FlowGraph) (search : Search) : Nat :=
  graph.blocks.countP fun block => !search.seen.contains block

/-- What has seen more leaves less unseen. -/
theorem unseen_le {early late : Search} (h : ∀ block ∈ early.seen, block ∈ late.seen) :
    graph.unseen late ≤ graph.unseen early := by
  refine List.countP_mono_left fun block _ hlate => ?_
  rw [Bool.not_eq_true', Bool.eq_false_iff] at hlate ⊢
  exact fun hearly => hlate (List.contains_iff_mem.mpr (h block (List.contains_iff_mem.mp hearly)))

/-- There is a level of the search left for every block that it may still see. -/
theorem unseen_lt {search : Search} {block : Block} (hblock : block ∈ graph.blocks)
    (hnot : search.seen.contains block = false) :
    graph.unseen { search with seen := block :: search.seen } < graph.unseen search := by
  refine countP_lt_of_mem (fun other _ h => ?_) hblock ?_ ?_
  · rw [List.contains_cons, Bool.not_eq_true', Bool.or_eq_false_iff] at h
    rw [Bool.not_eq_true', h.2]
  · rw [hnot]
    rfl
  · simp

/-- A search saw a block, and all that the blocks it saw lead to; and it saw
    blocks of the graph only. -/
structure Explores (graph : FlowGraph) (early late : Search) : Prop where
  seen : ∀ block ∈ early.seen, block ∈ late.seen
  inside : ∀ block ∈ late.seen, block ∈ early.seen ∨ block ∈ graph.blocks
  complete : ∀ block ∈ late.seen, block ∈ early.seen ∨
    ∀ next ∈ graph.successors block, next ∈ late.seen

theorem Explores.refl (search : Search) : graph.Explores search search :=
  ⟨fun _ h => h, fun _ h => Or.inl h, fun _ h => Or.inl h⟩

/-- Explorations one after the other. -/
theorem Explores.trans {a b c : Search} (h₁ : graph.Explores a b) (h₂ : graph.Explores b c) :
    graph.Explores a c where
  seen block h := h₂.seen block (h₁.seen block h)
  inside block h := by
    rcases h₂.inside block h with h | h
    · exact h₁.inside block h
    · exact Or.inr h
  complete block h := by
    rcases h₂.complete block h with h | h
    · exact (h₁.complete block h).imp id fun hnext next hmem => h₂.seen next (hnext next hmem)
    · exact Or.inr h

/-- Searches one after the other. -/
theorem foldl_explores {depth : Nat}
    (hvisit : ∀ search block, block ∈ graph.blocks → graph.unseen search ≤ depth →
      graph.Explores search (graph.visit depth search block) ∧
        block ∈ (graph.visit depth search block).seen)
    {blocks : List Block} (hblocks : ∀ block ∈ blocks, block ∈ graph.blocks) {search : Search}
    (hunseen : graph.unseen search ≤ depth) :
    graph.Explores search (blocks.foldl (graph.visit depth) search) ∧
      ∀ block ∈ blocks, block ∈ (blocks.foldl (graph.visit depth) search).seen := by
  induction blocks generalizing search with
  | nil => exact ⟨.refl search, fun _ h => by cases h⟩
  | cons first rest ih =>
      obtain ⟨hfirst, hseen⟩ := hvisit search first (hblocks first List.mem_cons_self) hunseen
      obtain ⟨hrest, hall⟩ := ih (fun block hblock => hblocks block (List.mem_cons_of_mem _ hblock))
        (Nat.le_trans (unseen_le hfirst.seen) hunseen)
      refine ⟨hfirst.trans hrest, fun block hblock => ?_⟩
      rcases List.mem_cons.mp hblock with rfl | hblock
      · exact hrest.seen block hseen
      · exact hall block hblock

/-- **A SEARCH MISSES NOTHING**: it sees where it starts, and all that the
    blocks lead to that it has seen. -/
theorem visit_explores (hclosed : graph.Closed) (depth : Nat) (search : Search) (block : Block)
    (hblock : block ∈ graph.blocks) (hunseen : graph.unseen search ≤ depth) :
    graph.Explores search (graph.visit depth search block) ∧
      block ∈ (graph.visit depth search block).seen := by
  -- by induction on the depth, which is the number of blocks that may be unseen
  induction depth generalizing search block with
  | zero =>
      refine ⟨.refl search, ?_⟩
      -- nothing is left to be seen
      have hnone := List.countP_eq_zero.mp (Nat.le_zero.mp hunseen) block hblock
      rw [Bool.not_eq_true, Bool.not_eq_false'] at hnone
      exact List.contains_iff_mem.mp hnone
  | succ depth ih =>
      refine ⟨?_, mem_seen_visit graph depth search block⟩
      rw [visit]
      cases hseen : search.seen.contains block with
      | true => exact .refl search
      | false =>
          have hlt := unseen_lt hblock hseen
          obtain ⟨hchildren, hall⟩ := foldl_explores ih (hclosed block hblock)
            (Nat.le_of_lt_succ (Nat.lt_of_lt_of_le hlt hunseen))
          rw [if_neg Bool.false_ne_true]
          refine ⟨?_, ?_, ?_⟩
          · exact fun other h => hchildren.seen other (List.mem_cons_of_mem _ h)
          · intro other hother
            rcases hchildren.inside other hother with h | h
            · rcases List.mem_cons.mp h with rfl | h
              · exact Or.inr hblock
              · exact Or.inl h
            · exact Or.inr h
          · intro other hother
            rcases hchildren.complete other hother with h | h
            · rcases List.mem_cons.mp h with rfl | h
              · exact Or.inr hall
              · exact Or.inl h
            · exact Or.inr h

/-- A search from a reached block sees reached blocks only. -/
theorem reached_of_visit {depth : Nat} {search : Search} {block : Block}
    (hseen : ∀ other ∈ search.seen, graph.Reached other) (hblock : graph.Reached block) :
    ∀ other ∈ (graph.visit depth search block).seen, graph.Reached other := by
  induction depth generalizing search block with
  | zero => exact hseen
  | succ depth ih =>
      rw [visit]
      split
      · exact hseen
      · refine List.foldlRecOn (graph.successors block) (graph.visit depth)
          (motive := fun search => ∀ other ∈ search.seen, graph.Reached other) ?_ ?_
        · intro other hother
          rcases List.mem_cons.mp hother with rfl | hother
          · exact hblock
          · exact hseen other hother
        · intro search hsearch next hnext
          exact ih hsearch (hblock.next hnext)

/-- Whether a search from the entry sees every block. -/
def reachesAll (graph : FlowGraph) : Bool :=
  match graph.entry? with
  | none => graph.blocks.isEmpty
  | some entry =>
    graph.blocks.all fun block => (graph.visit graph.blocks.length {} entry).seen.contains block

/-- The test finds every block reached. -/
theorem reached_of_reachesAll (h : graph.reachesAll = true) :
    ∀ block ∈ graph.blocks, graph.Reached block := by
  intro block hblock
  rw [reachesAll] at h
  cases hentry : graph.entry? with
  | none =>
      rw [hentry] at h
      rw [List.isEmpty_iff.mp h] at hblock
      cases hblock
  | some entry =>
      rw [hentry] at h
      have hseen := List.contains_iff_mem.mp (List.all_eq_true.mp h block hblock)
      exact reached_of_visit (fun _ hnone => by cases hnone) (.entry hentry) block hseen

/-! ## The order of blocks -/

section

variable (hclosed : graph.Closed)
include hclosed

/-- Only blocks of the graph finish. -/
theorem mem_blocks_of_finishOrder {block : Block} (h : block ∈ graph.finishOrder) :
    block ∈ graph.blocks := by
  have hunseen : graph.unseen {} ≤ graph.blocks.length := List.countP_le_length
  have hexplores := (foldl_explores (visit_explores hclosed _) (fun _ h => h) hunseen).1
  obtain ⟨added, hadded, -, hnew⟩ :=
    (foldl_grows (visit_grows graph graph.blocks.length) graph.blocks {}).finished
  rw [finishOrder, hadded] at h
  exact (hexplores.inside block (hnew block h).2).resolve_left fun hnone => by cases hnone

/-- Only blocks of the graph are in the reverse order. -/
theorem mem_blocks_of_reversePostorder {block : Block} (h : block ∈ graph.reversePostorder) :
    block ∈ graph.blocks :=
  mem_blocks_of_finishOrder hclosed (graph.postorder_perm.mem_iff.mp (List.mem_reverse.mp h))

/-- Only blocks of the graph are in the order. -/
theorem mem_blocks_of_postorder {block : Block} (h : block ∈ graph.postorder) :
    block ∈ graph.blocks :=
  mem_blocks_of_finishOrder hclosed (graph.postorder_perm.mem_iff.mp h)

variable {entry : Block} (hentry : graph.entry? = some entry)
include hentry

/-- The search from the entry comes first.  It finishes all that the entry
    reaches, and the entry last. -/
theorem finishOrder_split : ∃ added others,
    graph.finishOrder = (added ++ [entry]) ++ others ∧ graph.Feeds [entry] (added ++ [entry]) ∧
    (∀ block ∈ added ++ [entry], graph.Reached block) ∧
    ∀ block ∈ others, ¬ graph.Reached block := by
  obtain ⟨rest, hblocks⟩ := List.head?_eq_some_iff.mp hentry
  have hmem : entry ∈ graph.blocks := hblocks ▸ List.mem_cons_self
  have hunseen : graph.unseen {} ≤ graph.blocks.length := List.countP_le_length
  obtain ⟨first, hfirst⟩ : ∃ first, graph.visit graph.blocks.length {} entry = first := ⟨_, rfl⟩
  obtain ⟨hexplores, hseen⟩ := visit_explores hclosed graph.blocks.length {} entry hmem hunseen
  have hgrows := visit_grows graph graph.blocks.length {} entry
  rw [hfirst] at hexplores hseen hgrows
  -- by induction on the way from the entry, whose blocks are all explored
  have hall : ∀ block, graph.Reached block → block ∈ first.seen := by
    intro block h
    induction h with
    | entry h =>
        rw [hentry] at h
        cases h
        exact hseen
    | next h hnext ih => exact (hexplores.complete _ ih).resolve_left List.not_mem_nil _ hnext
  obtain ⟨depth, hdepth⟩ : ∃ depth, graph.blocks.length = depth + 1 :=
    ⟨rest.length, by rw [hblocks]; rfl⟩
  obtain ⟨added, hadded, hfeeds⟩ := foldl_adds (visit_adds graph depth) (graph.successors entry)
    { seen := [entry] }
  have htree : first.finished = added ++ [entry] := by
    rw [← hfirst, hdepth, visit, if_neg (by simp)]
    dsimp only at hadded ⊢
    rw [hadded]
    rfl
  obtain ⟨others, hothers, -, hnew⟩ :=
    (foldl_grows (visit_grows graph graph.blocks.length) rest first).finished
  refine ⟨added, others, ?_, hfeeds.concat, fun block hblock => ?_, fun block hblock hreached => ?_⟩
  · rw [finishOrder]
    conv => lhs; rw [hblocks]
    rw [List.foldl_cons, ← hblocks, hfirst, hothers, htree]
  · obtain ⟨tree, htree', -, hsaw⟩ := hgrows.finished
    have hreached : ∀ block ∈ (graph.visit graph.blocks.length {} entry).seen,
        graph.Reached block := reached_of_visit (fun _ hnone => by cases hnone) (.entry hentry)
    rw [hfirst] at hreached
    refine hreached block (hsaw block ?_).2
    rw [← htree, htree'] at hblock
    exact hblock
  · exact (hnew block hblock).1 (hall block hreached)

/-- What the entry does not reach comes first, and the entry last. -/
theorem postorder_split : ∃ added others,
    graph.finishOrder = (added ++ [entry]) ++ others ∧
    graph.postorder = others ++ (added ++ [entry]) ∧ graph.Feeds [entry] (added ++ [entry]) ∧
    (∀ block ∈ added ++ [entry], graph.Reached block) ∧
    ∀ block ∈ others, ¬ graph.Reached block := by
  obtain ⟨added, others, horder, hfeeds, hreached, hothers⟩ := finishOrder_split hclosed hentry
  refine ⟨added, others, horder, ?_, hfeeds, hreached, hothers⟩
  have hnodup := graph.nodup_finishOrder
  rw [horder] at hnodup
  have hnot : entry ∉ added := fun hmem =>
    (List.nodup_append.mp (List.nodup_append.mp hnodup).1).2.2 entry hmem entry
      List.mem_cons_self rfl
  have hindex : graph.finishOrder.idxOf entry + 1 = (added ++ [entry]).length := by
    rw [horder, List.append_assoc, List.idxOf_append, if_neg hnot]
    simp
  rw [postorder, hentry]
  dsimp only
  rw [hindex, horder, List.drop_left, List.take_left]

/-- **PREDECESSORS COME FIRST**: each block that the entry reaches, but the
    entry, comes behind one of its predecessors in the reverse order. -/
theorem fed_reversePostorder {before after : List Block} {block : Block}
    (h : graph.reversePostorder = before ++ block :: after) (hreached : graph.Reached block) :
    block = entry ∨ ∃ source ∈ before, source ∈ graph.predecessors block := by
  obtain ⟨added, others, -, hpost, hfeeds, -, hothers⟩ := postorder_split hclosed hentry
  have hsplit : others ++ (added ++ [entry]) = after.reverse ++ block :: before.reverse := by
    rw [← hpost, ← List.reverse_reverse graph.postorder, ← reversePostorder, h]
    simp
  obtain ⟨front, htree⟩ : ∃ front, added ++ [entry] = front ++ block :: before.reverse := by
    rcases List.append_eq_append_iff.mp hsplit with ⟨front, -, htree⟩ | ⟨rest, hunreached, hrest⟩
    · exact ⟨front, htree⟩
    · cases rest with
      | nil => exact ⟨[], hrest.symm⟩
      | cons first rest =>
          injection hrest with hfirst
          exact absurd hreached (hothers block (by rw [hunreached, hfirst]; simp))
  rcases hfeeds _ _ _ htree with hroot | ⟨source, hsource, hnext⟩
  · exact Or.inl (List.mem_singleton.mp hroot)
  · refine Or.inr ⟨source, List.mem_reverse.mp hsource, ?_⟩
    have hinside : source ∈ graph.blocks := by
      refine mem_blocks_of_reversePostorder hclosed ?_
      rw [h]
      exact List.mem_append_left _ (List.mem_reverse.mp hsource)
    exact List.mem_filter.mpr ⟨hinside, List.contains_iff_mem.mpr hnext⟩

end

end FlowGraph

/-- The entry reaches every block. -/
def Body.AllReached (body : Body) : Prop :=
  ∀ graph, FlowGraph.ofBody body = .ok graph → ∀ block ∈ graph.blocks, graph.Reached block

theorem Body.allReached_of_reachesAll {body : Body}
    (h : (FlowGraph.ofBody body).toOption.all FlowGraph.reachesAll = true) : body.AllReached := by
  intro graph hgraph
  rw [hgraph] at h
  exact FlowGraph.reached_of_reachesAll h

/-- A test of the graph of a body. -/
theorem FlowGraph.exists_of_test {body : Body} {test : FlowGraph → Bool}
    (h : (FlowGraph.ofBody body).toOption.any test = true) :
    ∃ graph, FlowGraph.ofBody body = .ok graph ∧ test graph = true :=
  Checked.exists_of_test h

/-- The edges of a graph stay inside the body that it was made for. -/
theorem FlowGraph.closed_of_ofBody {body : Body} {graph : FlowGraph}
    (h : FlowGraph.ofBody body = .ok graph) : graph.Closed := by
  intro block hblock next hnext
  have hflow := FlowGraph.of_ofBody h
  rw [hflow.blocks] at hblock ⊢
  have hlt := Body.mem_blockKeys.mp hblock
  exact Body.mem_blockKeys.mpr ((FlowGraph.successors_of_ofBody h hlt).2 next hnext)

/-- The edges of a well-formed body stay inside it. -/
theorem WellFormed.closed {body : Body} (wf : WellFormed body) {graph : FlowGraph}
    (hflow : graph.Of body) : graph.Closed := by
  intro block hblock next hnext
  rw [hflow.blocks] at hblock ⊢
  have hsuccessors := hflow.successors (Body.mem_blockKeys.mp hblock)
  exact Body.mem_blockKeys.mpr (wf.lt_of_mem_successors hsuccessors hnext)

end DecafBackend
