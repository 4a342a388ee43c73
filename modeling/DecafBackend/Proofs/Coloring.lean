import DecafBackend.Allocation.Coloring
import DecafBackend.Proofs.Interference

/-! # Coloring

    In whatever order the webs are taken off the graph, each gets a register that
    no neighbour has, so webs that interfere never share one.

    * `mem_simplify` — the webs taken off are webs of the graph
    * `Proper`, `Proper.select` — one web more
    * `compute_ok` — the coloring of a graph -/

namespace DecafBackend.Coloring

variable {graph : InterferenceGraph} {webs : Webs} {palette : List Register}

/-! ## Taking webs off -/

/-- A node that is spilled is one of the nodes. -/
theorem spillCandidate_mem (best : Node) (nodes : List Node) :
    spillCandidate best nodes ∈ best :: nodes := by
  fun_induction spillCandidate best nodes with
  | case1 best => exact List.mem_cons_self
  | case2 best node rest hle ih =>
      rcases List.mem_cons.mp ih with heq | hmem
      · rw [heq]
        exact List.mem_cons_self
      · exact List.mem_cons_of_mem _ (List.mem_cons_of_mem _ hmem)
  | case3 best node rest hle ih => exact List.mem_cons_of_mem _ ih

/-- A node that is taken off is one of the nodes. -/
theorem pick_mem (colors : Nat) (first : Node) (rest : List Node) :
    pick colors first rest ∈ first :: rest := by
  rw [pick]
  split
  · next node hfind => exact List.mem_of_find?_eq_some hfind
  · exact spillCandidate_mem first rest

/-- The webs that are left are webs that were there. -/
theorem mem_removeWeb {web : WebKey} {nodes : List Node} {node : Node}
    (h : node ∈ removeWeb graph web nodes) : ∃ old ∈ nodes, old.web = node.web := by
  obtain ⟨old, hold, rfl⟩ := List.mem_map.mp h
  refine ⟨old, (List.mem_filter.mp hold).1, ?_⟩
  split <;> rfl

/-- The webs that are taken off are webs of the graph. -/
theorem mem_simplify {colors count : Nat} {nodes : List Node} {stack : List WebKey} {web : WebKey}
    (h : web ∈ simplify graph colors count nodes stack) :
    web ∈ stack ∨ ∃ node ∈ nodes, node.web = web := by
  induction count generalizing nodes stack with
  | zero => exact Or.inl h
  | succ count ih =>
      cases nodes with
      | nil => exact Or.inl h
      | cons first rest =>
          rcases ih h with hstack | ⟨node, hnode, rfl⟩
          · rcases List.mem_cons.mp hstack with rfl | hstack
            · exact Or.inr ⟨_, pick_mem colors first rest, rfl⟩
            · exact Or.inl hstack
          · exact Or.inr (mem_removeWeb hnode)

/-- Nodes are made for webs of the body. -/
theorem initialNodes_ok (hbounded : graph.Bounded webs) : ∃ nodes,
    initialNodes graph webs = .ok nodes ∧ ∀ node ∈ nodes, node.web.index < webs.webs.size := by
  have hlt : ∀ web ∈ graph.nodes, web.index < webs.webs.size :=
    fun web hweb => hbounded web (Std.ExtTreeMap.mem_keys.mp hweb)
  have hget : ∀ web ∈ graph.nodes, ∃ found, webs.get web = .ok found := fun web hweb =>
    ⟨_, by rw [Webs.get, Array.getElem?_eq_getElem (hlt web hweb)]⟩
  -- a node is made for a web with a definition, as far as webs are found
  obtain ⟨defined, -, hcandidates⟩ := Checked.filterM_ok
    (p := fun web => return !(← webs.get web).isDefless) fun web hweb => by
      obtain ⟨found, hfound⟩ := hget web hweb
      exact ⟨!found.isDefless, by rw [hfound]; rfl⟩
  have hmem : ∀ web ∈ graph.nodes.filter defined, web ∈ graph.nodes :=
    fun web hweb => (List.mem_filter.mp hweb).1
  obtain ⟨nodes, hnodes⟩ := Checked.mapM_ok (l := graph.nodes.filter defined)
    (f := fun web => do
      let cost := Nat.max (← webs.get web).accessCount 1
      return Node.mk web cost
        ((graph.neighbours web).countP (graph.nodes.filter defined).contains)) fun web hweb => by
      obtain ⟨found, hfound⟩ := hget web (hmem web hweb)
      exact ⟨_, by rw [hfound]; rfl⟩
  refine ⟨nodes, ?_, fun node hnode => ?_⟩
  · rw [initialNodes, candidates, hcandidates]
    exact hnodes
  · -- the nodes stand where their webs stand
    obtain ⟨hlength, hat⟩ := Checked.mapM_eq_ok hnodes
    obtain ⟨i, hi, rfl⟩ := List.mem_iff_getElem.mp hnode
    obtain ⟨made, hmade, hweb⟩ := hat (List.getElem?_eq_getElem (hlength ▸ hi))
    rw [List.getElem?_eq_getElem hi] at hmade
    cases hmade
    obtain ⟨found, -, hweb⟩ := Checked.bind_eq_ok hweb
    rw [← Except.ok.inj hweb]
    exact hlt _ (hmem _ (List.getElem_mem _))

/-! ## Giving registers -/

/-- Webs that interfere have different registers, all of them of the palette. -/
structure Proper (graph : InterferenceGraph) (palette : List Register) (coloring : Coloring) :
    Prop where
  apart : ∀ {a b : WebKey} {register : Register}, a ≠ b → graph.interferes a b = true →
    graph.interferes b a = true → coloring.colors[a]? = some register →
    coloring.colors[b]? ≠ some register
  palette : ∀ {web : WebKey} {register : Register}, coloring.colors[web]? = some register →
    register ∈ palette

/-- No coloring is proper. -/
theorem Proper.start : Proper graph palette {} where
  apart _ _ _ h := by cases h
  palette h := by cases h

/-- What a web gets, no neighbour has. -/
theorem select_cases (graph : InterferenceGraph) (palette : List Register) (coloring : Coloring)
    (web : WebKey) : (select graph palette coloring web).colors = coloring.colors ∨
      ∃ register ∈ palette,
        (select graph palette coloring web).colors = coloring.colors.insert web register ∧
        ∀ other, graph.interferes web other = true → coloring.colors[other]? ≠ some register := by
  rw [select]
  split
  · next register hfind =>
      refine Or.inr ⟨register, List.mem_of_find?_eq_some hfind, rfl, fun other hother heq => ?_⟩
      have htaken := List.find?_some hfind
      rw [Bool.not_eq_true', ← Bool.not_eq_true, List.contains_iff_mem] at htaken
      refine htaken (List.mem_filterMap.mpr ⟨other, ?_, heq⟩)
      exact Std.ExtTreeSet.mem_toList.mpr (Std.ExtTreeSet.mem_iff_contains.mpr hother)
  · exact Or.inl rfl

/-- One web more. -/
theorem Proper.select {coloring : Coloring} (h : Proper graph palette coloring) (web : WebKey) :
    Proper graph palette (Coloring.select graph palette coloring web) := by
  rcases select_cases graph palette coloring web with heq | ⟨register, hmem, heq, hfree⟩
  · refine ⟨?_, ?_⟩
    · rw [heq]
      exact h.apart
    · rw [heq]
      exact h.palette
  -- the new register is free of conflicts, and other pairs are as they were
  · refine ⟨fun {a b other} hne hab hba ha hb => ?_, fun {key other} hkey => ?_⟩
    · rw [heq, Maps.getElem?_insert] at ha hb
      split at ha
      · next hweb =>
          subst hweb
          cases ha
          rw [if_neg hne] at hb
          exact hfree b hab hb
      · split at hb
        · next hweb =>
            subst hweb
            cases hb
            exact hfree a hba ha
        · exact h.apart hne hab hba ha hb
    · rw [heq, Maps.getElem?_insert] at hkey
      split at hkey
      · cases hkey
        exact hmem
      · exact h.palette hkey

/-- A coloring stays proper, one web after the other. -/
theorem foldl_select_proper {coloring : Coloring} (h : Proper graph palette coloring)
    (stack : List WebKey) : Proper graph palette (stack.foldl (select graph palette) coloring) := by
  induction stack generalizing coloring with
  | nil => exact h
  | cons web stack ih => exact ih (h.select web)

/-- Only webs that were taken off get registers. -/
theorem mem_of_foldl_select {coloring : Coloring} {stack : List WebKey} {web : WebKey}
    (h : web ∈ (stack.foldl (select graph palette) coloring).colors) :
    web ∈ coloring.colors ∨ web ∈ stack := by
  induction stack generalizing coloring with
  | nil => exact Or.inl h
  | cons first stack ih =>
      rcases ih h with hold | hmem
      · rcases select_cases graph palette coloring first with heq | ⟨register, -, heq, -⟩
        · exact Or.inl (heq ▸ hold)
        · rw [heq] at hold
          rcases Maps.mem_insert.mp hold with rfl | hold
          · exact Or.inr List.mem_cons_self
          · exact Or.inl hold
      · exact Or.inr (List.mem_cons_of_mem _ hmem)

/-- **WEBS THAT INTERFERE NEVER SHARE A REGISTER**. -/
theorem compute_ok (hbounded : graph.Bounded webs) (palette : List Register) : ∃ coloring,
    compute graph webs palette = .ok coloring ∧ Proper graph palette coloring ∧
      ∀ web ∈ coloring.colors, web.index < webs.webs.size := by
  obtain ⟨nodes, hnodes, hlt⟩ := initialNodes_ok hbounded
  refine ⟨_, by rw [compute, hnodes]; rfl, foldl_select_proper Proper.start _, fun web hweb => ?_⟩
  rcases mem_of_foldl_select hweb with hnone | hmem
  · exact absurd hnone Std.ExtTreeMap.not_mem_empty
  · rcases mem_simplify hmem with hnil | ⟨node, hnode, rfl⟩
    · cases hnil
    · exact hlt node hnode

end DecafBackend.Coloring
