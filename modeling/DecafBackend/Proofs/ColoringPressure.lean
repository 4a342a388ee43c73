import DecafBackend.Proofs.Coloring

/-! # Webs are spilled only under pressure

    Taking webs off the graph keeps count of the neighbours that each web has
    left.  The registers that a web cannot have are those of its neighbours that
    were still on the graph when it was taken off, so a web with fewer of them
    than there are registers gets one.  A web that can be taken off in some order
    can be taken off in every other: what is gone makes the others lighter.

    * `InterferenceGraph.Built` — graphs made by adding edges
    * `Counted`, `Empties` — the nodes left, and graphs that can be taken apart
    * `simplify_spec` — the order in which webs are taken off
    * `not_spilled_of_few`, `crowded_of_spilled` — the registers left for a web
    * `compute_valid` — the coloring of a graph -/

namespace DecafBackend

/-- Whether a key names a web that has a definition. -/
def Webs.defines (webs : Webs) (key : WebKey) : Bool :=
  match webs.webs[key.index]? with
  | some web => !web.isDefless
  | none => false

namespace InterferenceGraph

variable {webs : Webs} {graph : InterferenceGraph}

/-! ## Graphs made by adding edges -/

/-- A graph of webs that is made by adding edges to one that has none.  What it
    notes about calls does not matter. -/
inductive Built (webs : Webs) : InterferenceGraph → Prop
  /-- No webs interfere. -/
  | start {graph : InterferenceGraph} (hbounded : graph.Bounded webs)
      (hnone : ∀ a b, graph.interferes a b = false) : Built webs graph
  /-- Two webs interfere. -/
  | edge {graph : InterferenceGraph} {a b : WebKey} (h : Built webs graph)
      (ha : a.index < webs.webs.size) (hb : b.index < webs.webs.size) :
      Built webs (graph.addEdge a b)
  /-- Something is noted about calls. -/
  | note {graph : InterferenceGraph} (acrossCalls : Std.ExtTreeMap Inst (Std.ExtTreeSet WebKey))
      (h : Built webs graph) : Built webs { graph with acrossCalls }

/-- Graphs that are built have webs of the body only. -/
theorem Built.bounded (h : graph.Built webs) : graph.Bounded webs := by
  induction h with
  | start hbounded => exact hbounded
  | edge h ha hb ih =>
      intro key hkey
      rcases mem_edges_addEdge hkey with hold | rfl | rfl
      · exact ih key hold
      · exact ha
      · exact hb
  | note acrossCalls h ih => exact ih

/-- Webs interfere with each other, and none with itself. -/
theorem Built.interferes_symm (h : graph.Built webs) {x y : WebKey}
    (hxy : graph.interferes x y = true) : graph.interferes y x = true ∧ x ≠ y := by
  induction h generalizing x y with
  | start hbounded hnone =>
      rw [hnone] at hxy
      cases hxy
  | edge h ha hb ih =>
      rcases interferes_addEdge.mp hxy with ⟨hne, hends⟩ | hold
      · refine ⟨interferes_addEdge.mpr (Or.inl ⟨hne, hends.symm.imp And.symm And.symm⟩), ?_⟩
        rcases hends with ⟨rfl, rfl⟩ | ⟨rfl, rfl⟩
        · exact hne.symm
        · exact hne
      · exact ⟨interferes_addEdge.mpr (Or.inr (ih hold).1), (ih hold).2⟩
  | note acrossCalls h ih => exact ih hxy

/-- Edges from one web are built one by one. -/
theorem Built.addEdges (h : graph.Built webs) {web : WebKey} (hweb : web.index < webs.webs.size)
    {others : List WebKey} (hothers : ∀ other ∈ others, other.index < webs.webs.size) :
    (others.foldl (·.addEdge web ·) graph).Built webs := by
  induction others generalizing graph with
  | nil => exact h
  | cons other others ih =>
      exact ih (h.edge hweb (hothers other List.mem_cons_self))
        fun other hother => hothers other (List.mem_cons_of_mem _ hother)

/-- A statement adds edges. -/
theorem Built.addStmt (hindexed : webs.Indexed) (h : graph.Built webs) {body : Body}
    {live : LiveReads} {stmt : Inst} {after : InterferenceGraph}
    (hafter : addStmt body webs graph live stmt = .ok after) : after.Built webs := by
  have hlinked : (graph.linkLive (liveWebs webs live).toList webs.byDef[stmt]?).Built webs := by
    cases hdef : webs.byDef[stmt]? with
    | none => exact h
    | some web =>
        obtain ⟨found, hfound, -⟩ := hindexed.byDef.mp hdef
        refine h.addEdges (Array.getElem?_eq_some_iff.mp hfound).1 fun other hother => ?_
        obtain ⟨access, -, huse⟩ := mem_liveWebs.mp (Std.ExtTreeSet.mem_toList.mp hother)
        obtain ⟨found, hfound, -⟩ := hindexed.byUse.mp huse
        exact (Array.getElem?_eq_some_iff.mp hfound).1
  obtain ⟨call, -, hcall⟩ := Checked.bind_eq_ok hafter
  cases call with
  | none => exact Checked.pure_eq_ok hcall ▸ hlinked
  | some call => exact Checked.pure_eq_ok hcall ▸ hlinked.note _

/-- Webs that are added without edges interfere with nothing. -/
theorem interferes_isolated {pairs : List (WebKey × Web)}
    {edges : Std.ExtTreeMap WebKey (Std.ExtTreeSet WebKey)} {a b : WebKey}
    (h : edges[a]?.getD ∅ = ∅) :
    InterferenceGraph.interferes
      { edges := pairs.foldl (fun edges pair => edges.insert pair.1 ∅) edges } a b = false := by
  induction pairs generalizing edges with
  | nil =>
      rw [interferes, neighbourSet, List.foldl_nil, h]
      exact Std.ExtTreeSet.contains_empty
  | cons pair pairs ih =>
      refine ih ?_
      rw [Maps.getElem?_insert]
      split
      · rfl
      · exact h

/-- The interference graph of a body is made by adding edges. -/
theorem built_compute (hindexed : webs.Indexed) {body : Body} {liveness : Liveness}
    (h : compute body liveness webs = .ok graph) : graph.Built webs := by
  refine Checked.foldlM_invariant (Built webs) h
    (.start (bounded_isolated webs) fun _ _ => interferes_isolated rfl) ?_
  intro graph block after _ hbuilt hafter
  rw [addBlock_eq] at hafter
  obtain ⟨live, -, hafter⟩ := Checked.bind_eq_ok hafter
  obtain ⟨state, hstate, rfl⟩ := Checked.map_eq_ok hafter
  refine Checked.foldlM_invariant (fun state => Built webs state.1) hstate hbuilt ?_
  intro state stmt next _ hbuilt hnext
  obtain ⟨graph, hgraph, hnext⟩ := Checked.bind_eq_ok hnext
  obtain ⟨before, -, hnext⟩ := Checked.bind_eq_ok hnext
  exact Checked.pure_eq_ok hnext ▸ hbuilt.addStmt hindexed hgraph

/-- Neighbours are the webs that interfere. -/
theorem mem_neighbours {a b : WebKey} : b ∈ graph.neighbours a ↔ graph.interferes a b = true := by
  rw [neighbours, Std.ExtTreeSet.mem_toList, interferes, Std.ExtTreeSet.mem_iff_contains]

/-- A web is a neighbour once. -/
theorem nodup_neighbours (web : WebKey) : (graph.neighbours web).Nodup := by
  refine Std.ExtTreeSet.distinct_toList.imp fun hne heq => ?_
  exact hne (Std.LawfulEqOrd.compare_eq_iff_eq.mpr heq)

end InterferenceGraph

namespace Coloring

variable {graph : InterferenceGraph} {webs : Webs} {palette : List Register} {colors : Nat}

/-! ## Counting -/

/-- Lists without repetitions have as many entries in common, whichever one is
    searched. -/
theorem countP_contains_comm {l l' : List WebKey} (h : l.Nodup) (h' : l'.Nodup) :
    l.countP l'.contains = l'.countP l.contains := by
  rw [List.countP_eq_length_filter, List.countP_eq_length_filter]
  refine List.Perm.length_eq ((List.perm_ext_iff_of_nodup (h.filter _) (h'.filter _)).mpr ?_)
  intro key
  rw [List.mem_filter, List.mem_filter, List.contains_iff_mem, List.contains_iff_mem, and_comm]

/-- A list without repetitions counts no more entries than one that has them all. -/
theorem countP_le_countP {l l' : List WebKey} (h : l.Nodup) {p q : WebKey → Bool}
    (hsub : ∀ key ∈ l, p key = true → key ∈ l' ∧ q key = true) : l.countP p ≤ l'.countP q := by
  rw [List.countP_eq_length_filter, List.countP_eq_length_filter]
  have hnodup : (l.filter p).Nodup := h.filter _
  refine hnodup.length_le_of_subset fun key hkey => ?_
  obtain ⟨hmem, hp⟩ := List.mem_filter.mp hkey
  exact List.mem_filter.mpr (hsub key hmem hp)

/-- An entry in front of the others. -/
theorem perm_cons_filter_ne {l : List WebKey} (h : l.Nodup) {web : WebKey} (hweb : web ∈ l) :
    l.Perm (web :: l.filter (· ≠ web)) := by
  have herase : l.erase web = l.filter (· ≠ web) := by
    rw [h.erase_eq_filter]
    exact List.filter_congr fun key _ => Bool.eq_iff_iff.mpr (by rw [bne_iff_ne, decide_eq_true_eq])
  exact herase ▸ List.perm_cons_erase hweb

/-- The entries left without one of them. -/
theorem countP_filter_ne {l : List WebKey} (h : l.Nodup) {web : WebKey} (hweb : web ∈ l)
    (p : WebKey → Bool) :
    (l.filter (· ≠ web)).countP p = l.countP p - if p web then 1 else 0 := by
  rw [(perm_cons_filter_ne h hweb).countP_eq p, List.countP_cons, Nat.add_sub_cancel]

/-! ## The nodes of the graph -/

/-- The webs of a graph that take part in its coloring. -/
def parts (graph : InterferenceGraph) (webs : Webs) : List WebKey :=
  graph.nodes.filter webs.defines

theorem nodup_parts : (parts graph webs).Nodup := Std.ExtTreeMap.nodup_keys.filter _

/-- A web of the graph is a web of the body. -/
theorem get_of_bounded (h : graph.Bounded webs) {web : WebKey} (hweb : web ∈ graph.nodes) :
    ∃ found, webs.get web = .ok found ∧ webs.defines web = !found.isDefless := by
  have hlt := h web (Std.ExtTreeMap.mem_keys.mp hweb)
  refine ⟨webs.webs[web.index], ?_, ?_⟩
  · rw [Webs.get, Array.getElem?_eq_getElem hlt]
  · rw [Webs.defines, Array.getElem?_eq_getElem hlt]

/-- The candidates are the webs with definitions. -/
theorem candidates_eq (h : graph.Bounded webs) :
    candidates graph webs = .ok (parts graph webs) := by
  refine Checked.filterM_eq fun web hweb => ?_
  obtain ⟨found, hget, hdefines⟩ := get_of_bounded h hweb
  rw [hget, hdefines]
  rfl

/-- Nodes that know how many of their neighbours are left. -/
structure Counted (graph : InterferenceGraph) (nodes : List Node) : Prop where
  distinct : (nodes.map Node.web).Nodup
  degree : ∀ node ∈ nodes,
    node.degree = (nodes.map Node.web).countP (graph.interferes node.web)

/-- The nodes are the webs with definitions, with their neighbours counted. -/
theorem initialNodes_counted (h : graph.Built webs) : ∃ nodes,
    initialNodes graph webs = .ok nodes ∧ nodes.map Node.web = parts graph webs ∧
      Counted graph nodes := by
  let weigh (web : WebKey) : Node :=
    { web
      cost := match webs.webs[web.index]? with
        | some found => Nat.max found.accessCount 1
        | none => 1
      degree := (graph.neighbours web).countP (parts graph webs).contains }
  have hnodes : (parts graph webs).mapM (fun web => do
      let cost := Nat.max (← webs.get web).accessCount 1
      return Node.mk web cost
        ((graph.neighbours web).countP (parts graph webs).contains)) =
      Except.ok ((parts graph webs).map weigh) := by
    refine Checked.mapM_eq fun web hweb => ?_
    have hlt := h.bounded web (Std.ExtTreeMap.mem_keys.mp (List.mem_filter.mp hweb).1)
    simp only [weigh, Webs.get, Array.getElem?_eq_getElem hlt]
    rfl
  have hwebs : ((parts graph webs).map weigh).map Node.web = parts graph webs := by
    rw [List.map_map]
    exact List.map_id _
  refine ⟨(parts graph webs).map weigh, ?_, hwebs, ?_, fun node hnode => ?_⟩
  · rw [initialNodes, candidates_eq h.bounded]
    exact hnodes
  · rw [hwebs]
    exact nodup_parts
  -- neighbours among the nodes are counted from either side alike
  · obtain ⟨web, -, rfl⟩ := List.mem_map.mp hnode
    rw [hwebs]
    show (graph.neighbours web).countP (parts graph webs).contains = _
    rw [countP_contains_comm (InterferenceGraph.nodup_neighbours web) nodup_parts]
    refine List.countP_congr fun other _ => ?_
    rw [List.contains_iff_mem, InterferenceGraph.mem_neighbours]

/-- The webs that are left are all but the one that was taken. -/
theorem webs_removeWeb (web : WebKey) (nodes : List Node) :
    (removeWeb graph web nodes).map Node.web = (nodes.map Node.web).filter (· ≠ web) := by
  rw [removeWeb, List.map_map, List.filter_map]
  refine List.map_congr_left fun node _ => ?_
  show Node.web (if _ then _ else _) = node.web
  split <;> rfl

/-- The nodes that are left know how many of their neighbours are left. -/
theorem Counted.removeWeb (hbuilt : graph.Built webs) {nodes : List Node} (h : Counted graph nodes)
    {web : WebKey} (hweb : web ∈ nodes.map Node.web) :
    Counted graph (removeWeb graph web nodes) where
  distinct := by
    rw [webs_removeWeb]
    exact h.distinct.filter _
  degree node hnode := by
    rw [webs_removeWeb, countP_filter_ne h.distinct hweb]
    obtain ⟨old, hold, rfl⟩ := List.mem_map.mp hnode
    have hdegree := h.degree old (List.mem_filter.mp hold).1
    have hsame : graph.interferes web old.web = graph.interferes old.web web := by
      rw [Bool.eq_iff_iff]
      exact ⟨fun hxy => (hbuilt.interferes_symm hxy).1, fun hxy => (hbuilt.interferes_symm hxy).1⟩
    -- a node loses a neighbour if the web is one
    by_cases hinterferes : graph.interferes web old.web = true
    · rw [if_pos hinterferes]
      dsimp only
      rw [if_pos (hsame ▸ hinterferes), hdegree]
    · rw [if_neg hinterferes, if_neg (hsame ▸ hinterferes), hdegree, Nat.sub_zero]

/-! ## Taking the graph apart -/

/-- Webs that can be taken off one by one, each with fewer neighbours left than
    there are colors. -/
inductive Empties (graph : InterferenceGraph) (colors : Nat) : List WebKey → Prop
  /-- All webs were taken off. -/
  | done : Empties graph colors []
  /-- A web is taken off. -/
  | take {left : List WebKey} {web : WebKey} (hweb : web ∈ left)
      (hfew : left.countP (graph.interferes web) < colors)
      (hrest : Empties graph colors (left.filter (· ≠ web))) : Empties graph colors left

/-- Fewer webs are taken off as well. -/
theorem Empties.filter {left : List WebKey} (h : Empties graph colors left) (p : WebKey → Bool) :
    Empties graph colors (left.filter p) := by
  induction h with
  | done => exact .done
  | @take left web hweb hfew hrest ih =>
      have hcomm : (left.filter p).filter (· ≠ web) = (left.filter (· ≠ web)).filter p := by
        rw [List.filter_filter, List.filter_filter]
        exact List.filter_congr fun key _ => Bool.and_comm _ _
      by_cases hp : p web = true
      · refine .take (List.mem_filter.mpr ⟨hweb, hp⟩) ?_ (hcomm ▸ ih)
        exact Nat.lt_of_le_of_lt (List.filter_sublist.countP_le) hfew
      · -- the web is not among those that are left
        have hsame : (left.filter p).filter (· ≠ web) = left.filter p := by
          refine List.filter_eq_self.mpr fun key hkey => decide_eq_true ?_
          rintro rfl
          exact hp (List.mem_filter.mp hkey).2
        rw [← hsame, hcomm]
        exact ih

/-- If some web has few neighbours left, a web with few of them is taken off. -/
theorem degree_pick_lt {first : Node} {rest : List Node}
    (h : ∃ node ∈ first :: rest, node.degree < colors) :
    (pick colors first rest).degree < colors := by
  obtain ⟨node, hnode, hfew⟩ := h
  rw [pick]
  split
  · next found hfound =>
      have hdegree := List.find?_some hfound
      exact of_decide_eq_true hdegree
  · next hnone =>
      exact absurd (decide_eq_true hfew) (List.find?_eq_none.mp hnone node hnode)

/-- Every web of a list has fewer neighbours in front of it than there are colors. -/
def Light (graph : InterferenceGraph) (colors : Nat) (taken : List WebKey) : Prop :=
  ∀ front web back, taken = front ++ web :: back → front.countP (graph.interferes web) < colors

/-- A web on top with few neighbours below keeps the stack light. -/
theorem Light.snoc {taken : List WebKey} {web : WebKey} (h : Light graph colors taken)
    (hweb : taken.countP (graph.interferes web) < colors) :
    Light graph colors (taken ++ [web]) := by
  intro front other back hsplit
  rcases List.eq_nil_or_concat back with rfl | ⟨back, last, rfl⟩
  · obtain ⟨rfl, hlast⟩ := List.append_inj' hsplit rfl
    cases hlast
    exact hweb
  · rw [List.concat_eq_append, ← List.cons_append, ← List.append_assoc] at hsplit
    exact h front other back (List.append_inj_left' hsplit rfl)

/-- **WEBS ARE TAKEN OFF** all of them, and each of them when it has few
    neighbours left, if there is an order in which that can be done. -/
theorem simplify_spec (hbuilt : graph.Built webs) {count : Nat} {nodes : List Node}
    (h : Counted graph nodes) (hcount : nodes.length ≤ count) (stack : List WebKey) :
    ∃ taken, simplify graph colors count nodes stack = taken ++ stack ∧
      taken.Perm (nodes.map Node.web) ∧
      (Empties graph colors (nodes.map Node.web) → Light graph colors taken) := by
  induction count generalizing nodes stack with
  | zero =>
      obtain rfl := List.length_eq_zero_iff.mp (Nat.le_zero.mp hcount)
      refine ⟨[], rfl, List.Perm.refl _, fun _ front web back hsplit => ?_⟩
      cases front <;> cases hsplit
  | succ count ih =>
      cases nodes with
      | nil =>
          refine ⟨[], rfl, List.Perm.refl _, fun _ front web back hsplit => ?_⟩
          cases front <;> cases hsplit
      | cons first rest =>
          have hpick := pick_mem colors first rest
          -- the web that is taken is counted no more, and its neighbours have one less each
          let web := (pick colors first rest).web
          have hweb : web ∈ (first :: rest).map Node.web := List.mem_map.mpr ⟨_, hpick, rfl⟩
          have hleft := @webs_removeWeb graph web (first :: rest)
          have herase := perm_cons_filter_ne h.distinct hweb
          have hlength : (removeWeb graph web (first :: rest)).length ≤ count := by
            have hperm := herase.length_eq
            rw [← hleft, List.length_cons, List.length_map, List.length_map] at hperm
            rw [List.length_cons] at hcount hperm
            omega
          obtain ⟨taken, htaken, hperm, hlight⟩ :=
            ih (h.removeWeb hbuilt hweb) hlength (web :: stack)
          rw [hleft] at hperm hlight
          -- the web that is taken off first is popped last
          refine ⟨taken ++ [web], ?_, ?_, fun hempties => ?_⟩
          · rw [List.append_assoc]
            exact htaken
          · exact (List.perm_append_singleton web taken).trans
              ((hperm.cons web).trans herase.symm)
          · refine (hlight (hempties.filter _)).snoc ?_
            rw [hperm.countP_eq]
            refine Nat.lt_of_le_of_lt List.filter_sublist.countP_le ?_
            rw [← h.degree _ hpick]
            -- the web that some order starts with has few neighbours left
            cases hempties with
            | take hother hfew hrest =>
                obtain ⟨node, hnode, rfl⟩ := List.mem_map.mp hother
                exact degree_pick_lt ⟨node, hnode, by rw [h.degree node hnode]; exact hfew⟩

/-! ## Giving registers -/

/-- A web gets a register or is spilled, and nothing else changes. -/
theorem select_other (coloring : Coloring) {web other : WebKey} (hne : other ≠ web) :
    (other ∈ (select graph palette coloring web).colors ↔ other ∈ coloring.colors) ∧
      (other ∈ (select graph palette coloring web).spilled ↔ other ∈ coloring.spilled) := by
  rw [select]
  split
  · exact ⟨Maps.mem_insert.trans (or_iff_right hne), Iff.rfl⟩
  · exact ⟨Iff.rfl, Maps.set_mem_insert.trans (or_iff_right hne)⟩

/-- A web is colored or spilled when its turn comes. -/
theorem select_self {coloring : Coloring} {web : WebKey} (hcolors : web ∉ coloring.colors)
    (hspilled : web ∉ coloring.spilled) :
    web ∈ (select graph palette coloring web).colors ↔
      web ∉ (select graph palette coloring web).spilled := by
  rw [select]
  split
  · exact iff_of_true (Maps.mem_insert.mpr (Or.inl rfl)) hspilled
  · exact iff_of_false hcolors (not_not_intro (Maps.set_mem_insert.mpr (Or.inl rfl)))

/-- To color other webs leaves a web as it was. -/
theorem foldl_select_other {coloring : Coloring} {stack : List WebKey} {other : WebKey}
    (h : other ∉ stack) :
    (other ∈ (stack.foldl (select graph palette) coloring).colors ↔ other ∈ coloring.colors) ∧
      (other ∈ (stack.foldl (select graph palette) coloring).spilled ↔
        other ∈ coloring.spilled) := by
  induction stack generalizing coloring with
  | nil => exact ⟨Iff.rfl, Iff.rfl⟩
  | cons web stack ih =>
      obtain ⟨hne, hnot⟩ := not_or.mp (List.mem_cons.not.mp h)
      have hlater := @ih (select graph palette coloring web) hnot
      obtain ⟨hcolors, hspilled⟩ := @select_other graph palette coloring web other hne
      exact ⟨hlater.1.trans hcolors, hlater.2.trans hspilled⟩

/-- A web that is not popped has no register and is not spilled. -/
theorem not_mem_foldl_select {stack : List WebKey} {other : WebKey} (h : other ∉ stack) :
    other ∉ (stack.foldl (select graph palette) {}).colors ∧
      other ∉ (stack.foldl (select graph palette) {}).spilled := by
  rw [(foldl_select_other h).1, (foldl_select_other h).2]
  exact ⟨Std.ExtTreeMap.not_mem_empty, Std.ExtTreeSet.not_mem_empty⟩

/-- A web that is popped once has a register or is spilled. -/
theorem settled_of_mem {stack : List WebKey} (hnodup : stack.Nodup) {web : WebKey}
    (hweb : web ∈ stack) :
    web ∈ (stack.foldl (select graph palette) {}).colors ↔
      web ∉ (stack.foldl (select graph palette) {}).spilled := by
  obtain ⟨front, back, rfl⟩ := List.append_of_mem hweb
  obtain ⟨-, hback, hapart⟩ := List.nodup_append.mp hnodup
  have hfront : web ∉ front := fun hmem => hapart web hmem web List.mem_cons_self rfl
  rw [List.foldl_append, List.foldl_cons]
  have hnot : web ∉ back := (List.nodup_cons.mp hback).1
  -- nothing is known of the web before it is popped, and nothing changes after it
  rw [(foldl_select_other hnot).1, (foldl_select_other hnot).2]
  obtain ⟨hcolors, hspilled⟩ := not_mem_foldl_select hfront
  exact select_self hcolors hspilled

/-- A web is colored if fewer of its neighbours are colored than there are
    registers. -/
theorem not_spilled_select (hnodup : palette.Nodup) {coloring : Coloring} {web : WebKey}
    {front : List WebKey} (hcolored : ∀ key ∈ coloring.colors, key ∈ front)
    (hfew : front.countP (graph.interferes web) < palette.length)
    (hspilled : web ∉ coloring.spilled) :
    web ∉ (select graph palette coloring web).spilled := by
  -- only neighbours that were colored before take a register away
  have htaken : ((graph.neighbours web).filterMap fun other => coloring.colors[other]?).length ≤
      front.countP (graph.interferes web) := by
    have honly : (graph.neighbours web).filterMap (fun other => coloring.colors[other]?) =
        ((graph.neighbours web).filter front.contains).filterMap
          fun other => coloring.colors[other]? := by
      rw [List.filterMap_filter]
      refine List.filterMap_congr fun other _ => ?_
      cases hcolor : coloring.colors[other]? with
      | none => split <;> rfl
      | some register =>
          have hmem := hcolored other (Maps.mem_of_getElem? hcolor)
          rw [if_pos (List.contains_iff_mem.mpr hmem)]
    rw [honly]
    refine Nat.le_trans (List.length_filterMap_le _ _) ?_
    rw [← List.countP_eq_length_filter]
    exact countP_le_countP (InterferenceGraph.nodup_neighbours web) fun other hneighbour hmem =>
      ⟨List.contains_iff_mem.mp hmem, InterferenceGraph.mem_neighbours.mp hneighbour⟩
  rw [select]
  split
  · exact hspilled
  · next hnone =>
      -- all registers would be taken
      have hall : palette ⊆
          (graph.neighbours web).filterMap fun other => coloring.colors[other]? := by
        intro register hregister
        have hmem := List.find?_eq_none.mp hnone register hregister
        rw [Bool.not_eq_true, Bool.not_eq_false'] at hmem
        exact List.contains_iff_mem.mp hmem
      have hlength := hnodup.length_le_of_subset hall
      omega

/-- **A WEB WITH FEW NEIGHBOURS IN FRONT OF IT** is not spilled. -/
theorem not_spilled_of_few (hnodup : palette.Nodup) {front back : List WebKey} {web : WebKey}
    (hfront : web ∉ front) (hback : web ∉ back)
    (hfew : front.countP (graph.interferes web) < palette.length) :
    web ∉ ((front ++ web :: back).foldl (select graph palette) {}).spilled := by
  rw [List.foldl_append, List.foldl_cons, (foldl_select_other hback).2]
  refine not_spilled_select hnodup (fun key hkey => ?_) hfew (not_mem_foldl_select hfront).2
  exact (mem_of_foldl_select hkey).resolve_left Std.ExtTreeMap.not_mem_empty

/-- A web is spilled behind as many of its neighbours as there are registers. -/
theorem crowded_of_spilled (hnodup : palette.Nodup) {taken : List WebKey} (hdistinct : taken.Nodup)
    {web : WebKey} (hspilled : web ∈ (taken.foldl (select graph palette) {}).spilled) :
    ∃ front back, taken = front ++ web :: back ∧
      palette.length ≤ front.countP (graph.interferes web) := by
  have hweb : web ∈ taken := by
    refine Classical.byContradiction fun hnot => ?_
    exact (not_mem_foldl_select hnot).2 hspilled
  obtain ⟨front, back, rfl⟩ := List.append_of_mem hweb
  obtain ⟨-, hback, hapart⟩ := List.nodup_append.mp hdistinct
  have hfront : web ∉ front := fun hmem => hapart web hmem web List.mem_cons_self rfl
  refine ⟨front, back, rfl, Nat.le_of_not_lt fun hfew => ?_⟩
  exact not_spilled_of_few hnodup hfront (List.nodup_cons.mp hback).1 hfew hspilled

/-! ## The coloring of a graph -/

/-- Every web with a definition has a register of the palette or is spilled, webs
    that interfere have different registers, and webs are spilled only if the
    graph is crowded. -/
structure Valid (graph : InterferenceGraph) (webs : Webs) (palette : List Register)
    (coloring : Coloring) : Prop where
  settled : ∀ web ∈ graph.nodes, webs.defines web = true →
    (web ∈ coloring.colors ↔ web ∉ coloring.spilled)
  only : ∀ web, web ∈ coloring.colors ∨ web ∈ coloring.spilled →
    web ∈ graph.nodes ∧ webs.defines web = true
  offered : ∀ {web : WebKey} {register : Register}, coloring.colors[web]? = some register →
    register ∈ palette
  apart : ∀ {a b : WebKey} {register : Register}, graph.interferes a b = true →
    coloring.colors[a]? = some register → coloring.colors[b]? ≠ some register
  few : ∀ web, (graph.neighbours web).countP webs.defines < palette.length →
    web ∉ coloring.spilled
  empties : Empties graph palette.length (graph.nodes.filter webs.defines) →
    coloring.spilled = ∅

/-- **WEBS ARE SPILLED ONLY UNDER PRESSURE**. -/
theorem compute_valid (h : graph.Built webs) (hnodup : palette.Nodup) :
    ∃ coloring, compute graph webs palette = .ok coloring ∧ Valid graph webs palette coloring := by
  obtain ⟨nodes, hnodes, hparts, hcounted⟩ := initialNodes_counted h
  -- every web comes off the graph once, and is settled when it is popped
  obtain ⟨taken, htaken, hperm, hlight⟩ :=
    @simplify_spec graph webs palette.length h _ _ hcounted (Nat.le_refl _) []
  rw [hparts] at hperm hlight
  rw [List.append_nil] at htaken
  have hdistinct : taken.Nodup := hperm.nodup_iff.mpr nodup_parts
  have hmem : ∀ {web}, web ∈ taken ↔ web ∈ graph.nodes ∧ webs.defines web = true := by
    intro web
    rw [hperm.mem_iff, parts, List.mem_filter]
  have hproper := foldl_select_proper (@Proper.start graph palette) taken
  refine ⟨taken.foldl (select graph palette) {}, ?_, ?_, ?_, hproper.palette, ?_, ?_, ?_⟩
  · rw [compute, hnodes, ← htaken]
    rfl
  · intro web hweb hdefines
    exact settled_of_mem hdistinct (hmem.mpr ⟨hweb, hdefines⟩)
  · intro web hweb
    refine Classical.byContradiction fun hnot => ?_
    obtain ⟨hcolors, hspilled⟩ := not_mem_foldl_select fun hin => hnot (hmem.mp hin)
    exact hweb.elim hcolors hspilled
  · intro a b register hab
    obtain ⟨hba, hne⟩ := h.interferes_symm hab
    exact hproper.apart hne hab hba
  · intro web hfew hspilled
    obtain ⟨front, back, hsplit, hcrowded⟩ := crowded_of_spilled hnodup hdistinct hspilled
    refine Nat.not_lt.mpr hcrowded (Nat.lt_of_le_of_lt ?_ hfew)
    -- the neighbours in front of the web are neighbours with definitions
    rw [hsplit] at hdistinct
    refine countP_le_countP (List.nodup_append.mp hdistinct).1 fun other hin hinterferes => ?_
    exact ⟨InterferenceGraph.mem_neighbours.mpr hinterferes,
      (hmem.mp (hsplit ▸ List.mem_append_left _ hin)).2⟩
  · intro hempties
    refine Std.ExtTreeSet.ext_mem fun web => iff_of_false (fun hspilled => ?_)
      Std.ExtTreeSet.not_mem_empty
    obtain ⟨front, back, hsplit, hcrowded⟩ := crowded_of_spilled hnodup hdistinct hspilled
    exact Nat.not_lt.mpr hcrowded (hlight hempties front web back hsplit)

/-- Four webs with a definition, and one without. -/
def crowdedWebs : Webs :=
  { webs := #[{ loc := ⟨0⟩, defs := {⟨0⟩} }, { loc := ⟨1⟩, defs := {⟨1⟩} },
      { loc := ⟨2⟩, defs := {⟨2⟩} }, { loc := ⟨3⟩, defs := {⟨3⟩} }, { loc := ⟨4⟩ }] }

/-- Three webs that all interfere, and a fourth that interferes with one of them
    and with the web that has no definition. -/
def crowded : InterferenceGraph :=
  (((({} : InterferenceGraph).addEdge ⟨0⟩ ⟨1⟩).addEdge ⟨1⟩ ⟨2⟩).addEdge ⟨2⟩ ⟨0⟩).addEdge ⟨0⟩ ⟨3⟩
    |>.addEdge ⟨3⟩ ⟨4⟩

/-- A graph with more pressure than registers is colored as well. -/
theorem crowded_valid : crowded.Built crowdedWebs ∧ [Register.r12, .r13].Nodup ∧
    ∃ coloring, compute crowded crowdedWebs [.r12, .r13] = .ok coloring ∧
      Valid crowded crowdedWebs [.r12, .r13] coloring := by
  have hstart : ({} : InterferenceGraph).Built crowdedWebs :=
    .start (fun _ hkey => absurd hkey Std.ExtTreeMap.not_mem_empty) fun _ _ => rfl
  have hbuilt : crowded.Built crowdedWebs :=
    ((((hstart.edge (by decide) (by decide)).edge (by decide) (by decide)).edge
      (by decide) (by decide)).edge (by decide) (by decide)).edge (by decide) (by decide)
  have hnodup : [Register.r12, .r13].Nodup := by decide
  exact ⟨hbuilt, hnodup, compute_valid hbuilt hnodup⟩

-- two registers are too few for three webs that all interfere
example : (compute crowded crowdedWebs [.r12, .r13]).toOption.map
    (fun coloring => (coloring.colors.keys, coloring.spilled.toList)) =
      some ([⟨1⟩, ⟨2⟩, ⟨3⟩], [⟨0⟩]) := by decide +kernel

end Coloring

end DecafBackend
