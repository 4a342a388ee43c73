import DecafBackend.Allocation.Interference
import DecafBackend.Proofs.Webs

/-! # Interference

    Every statement is covered: the web that it defines interferes with all
    other webs that are live behind it, and a call notes them all, less the web
    that its result defines.

    * `Covers`, `Grows` — what a statement needs, and what later ones keep
    * `addStmt_spec` — one statement
    * `addStmts_spec`, `addBlocks_spec` — the statements of a block, and all blocks
    * `compute_ok` — the interference graph of a body -/

namespace DecafBackend

/-- The call that a statement makes belongs to the statement. -/
theorem Body.callInst_mem_family {body : Body} {stmt call : Inst} {command : Command}
    (hcommand : body.command? stmt = some command) (h : command.callInst? stmt = some call) :
    call ∈ body.family stmt := by
  rw [family_eq hcommand]
  cases command with
  | save value dest =>
      cases value with
      | call inst target args isExternal saved =>
          cases h
          exact List.mem_cons_self
      | load | param | unary | binary => cases h
  | call target args isExternal saved =>
      cases h
      exact List.mem_append_right _ List.mem_cons_self
  | use | label | jump | branch | ret | exit => cases h

namespace InterferenceGraph

variable {body : Body} {webs : Webs} {graph : InterferenceGraph}

/-! ## Edges -/

/-- An arc more is the one more pair that interferes. -/
theorem interferes_addArc {a b x y : WebKey} : (graph.addArc a b).interferes x y = true ↔
    (x = a ∧ y = b) ∨ graph.interferes x y = true := by
  simp only [interferes, addArc, neighbourSet, ← Std.ExtTreeSet.mem_iff_contains,
    Maps.getElem?_insert]
  by_cases heq : a = x
  · subst heq
    simp only [if_true, Option.getD_some, Maps.set_mem_insert, true_and]
  · have hne : x ≠ a := fun h => heq h.symm
    simp only [heq, hne, if_false, false_and, false_or]

/-- An edge goes both ways. -/
theorem interferes_addEdge {a b x y : WebKey} : (graph.addEdge a b).interferes x y = true ↔
    (b ≠ a ∧ ((x = a ∧ y = b) ∨ (x = b ∧ y = a))) ∨ graph.interferes x y = true := by
  rw [addEdge]
  by_cases heq : a = b
  · simp only [heq, if_true, ne_eq, not_true_eq_false, false_and, false_or]
  · have hne : b ≠ a := fun h => heq h.symm
    rw [if_neg heq, interferes_addArc, interferes_addArc]
    simp only [ne_eq, hne, not_false_eq_true, true_and]
    rw [← or_assoc, or_comm (a := x = b ∧ y = a)]

/-- Edges from one web to others. -/
theorem interferes_addEdges {web x y : WebKey} {others : List WebKey} :
    (others.foldl (·.addEdge web ·) graph).interferes x y = true ↔
      (∃ other ∈ others, other ≠ web ∧ ((x = web ∧ y = other) ∨ (x = other ∧ y = web))) ∨
        graph.interferes x y = true := by
  induction others generalizing graph with
  | nil => simp
  | cons other others ih =>
      rw [List.foldl_cons, ih, interferes_addEdge, ← or_assoc, List.exists_mem_cons_iff,
        or_comm (a := ∃ other ∈ others, _)]

/-- An edge has no ends but the two webs. -/
theorem mem_edges_addEdge {a b key : WebKey} (h : key ∈ (graph.addEdge a b).edges) :
    key ∈ graph.edges ∨ key = a ∨ key = b := by
  rw [addEdge] at h
  split at h
  · exact Or.inl h
  · rcases Maps.mem_insert.mp h with rfl | h
    · exact Or.inr (Or.inr rfl)
    · rcases Maps.mem_insert.mp h with rfl | h
      · exact Or.inr (Or.inl rfl)
      · exact Or.inl h

/-- Edges have no ends but the webs they are drawn for. -/
theorem mem_edges_addEdges {web key : WebKey} {others : List WebKey}
    (h : key ∈ (others.foldl (·.addEdge web ·) graph).edges) :
    key ∈ graph.edges ∨ key = web ∨ key ∈ others := by
  induction others generalizing graph with
  | nil => exact Or.inl h
  | cons other others ih =>
      rcases ih h with h | h | h
      · rcases mem_edges_addEdge h with h | h | rfl
        · exact Or.inl h
        · exact Or.inr (Or.inl h)
        · exact Or.inr (Or.inr List.mem_cons_self)
      · exact Or.inr (Or.inl h)
      · exact Or.inr (Or.inr (List.mem_cons_of_mem other h))

/-- Edges change no set of survivors. -/
theorem acrossCalls_addEdges {web : WebKey} {others : List WebKey} :
    (others.foldl (·.addEdge web ·) graph).acrossCalls = graph.acrossCalls := by
  induction others generalizing graph with
  | nil => rfl
  | cons other others ih =>
      rw [List.foldl_cons, ih, addEdge]
      split <;> rfl

/-! ## Live webs -/

/-- The webs that are live are those of the reads that are. -/
theorem mem_liveWebs {live : LiveReads} {key : WebKey} : key ∈ liveWebs webs live ↔
    ∃ access ∈ live, webs.byUse[access]? = some key := by
  rw [liveWebs, Maps.set_mem_foldl_step fun found access => ?_]
  · simp only [Std.ExtTreeSet.mem_toList]
    exact ⟨fun h => h.resolve_left Std.ExtTreeSet.not_mem_empty, Or.inr⟩
  · cases webs.byUse[access]? with
    | none => simp
    | some web =>
        rw [Maps.set_mem_insert, or_comm, Option.some.injEq, eq_comm (a := key)]

/-! ## One statement -/

/-- What a statement needs, given the reads that are live behind it. -/
structure Covers (webs : Webs) (graph : InterferenceGraph) (stmt : Inst) (command : Command)
    (live : LiveReads) : Prop where
  edges : ∀ {web other : WebKey}, webs.byDef[stmt]? = some web → other ∈ liveWebs webs live →
    other ≠ web → graph.interferes web other = true ∧ graph.interferes other web = true
  calls : ∀ {call : Inst}, command.callInst? stmt = some call → ∃ survivors,
    graph.acrossCalls[call]? = some survivors ∧
      ∀ web ∈ liveWebs webs live, webs.byDef[stmt]? ≠ some web → web ∈ survivors

/-- A graph with more edges, and with other entries for the calls of some
    statements only. -/
structure Grows (body : Body) (stmts : List Inst) (graph after : InterferenceGraph) : Prop where
  edges : ∀ {a b : WebKey}, graph.interferes a b = true → after.interferes a b = true
  calls : ∀ {call : Inst}, (∀ stmt ∈ stmts, call ∉ body.family stmt) →
    after.acrossCalls[call]? = graph.acrossCalls[call]?

/-- A graph on webs that exist. -/
def Bounded (webs : Webs) (graph : InterferenceGraph) : Prop :=
  ∀ key ∈ graph.edges, key.index < webs.webs.size

/-- A graph grows by no statements. -/
theorem Grows.refl (body : Body) (graph : InterferenceGraph) : Grows body [] graph graph where
  edges h := h
  calls _ := rfl

/-- A graph that grows goes on growing. -/
theorem Grows.trans {stmts stmts' : List Inst} {mid after : InterferenceGraph}
    (h : Grows body stmts graph mid) (h' : Grows body stmts' mid after) :
    Grows body (stmts ++ stmts') graph after where
  edges hab := h'.edges (h.edges hab)
  calls hcall := by
    rw [h'.calls fun stmt hstmt => hcall stmt (List.mem_append_right _ hstmt),
      h.calls fun stmt hstmt => hcall stmt (List.mem_append_left _ hstmt)]

/-- Other statements keep what a statement needs: calls belong to one statement only. -/
theorem Covers.mono (wf : WellFormed body) {after : InterferenceGraph} {stmt : Inst}
    {command : Command} {live : LiveReads} (h : Covers webs graph stmt command live)
    (hstmt : stmt ∈ body.stmts) (hcommand : body.command? stmt = some command) {stmts : List Inst}
    (hstmts : ∀ other ∈ stmts, other ∈ body.stmts) (hnot : stmt ∉ stmts)
    (hgrows : Grows body stmts graph after) : Covers webs after stmt command live where
  edges hdef hlive hne :=
    ⟨hgrows.edges (h.edges hdef hlive hne).1, hgrows.edges (h.edges hdef hlive hne).2⟩
  calls {call} hcall := by
    obtain ⟨survivors, hsurvivors, hmem⟩ := h.calls hcall
    refine ⟨survivors, ?_, hmem⟩
    rw [hgrows.calls]
    · exact hsurvivors
    · intro other hother hfamily
      have heq := wf.owned other (hstmts other hother) stmt hstmt call hfamily
        (Body.callInst_mem_family hcommand hcall)
      exact hnot (heq ▸ hother)

/-- The graph with edges from the web that a statement defines. -/
def linkLive (graph : InterferenceGraph) (live : List WebKey) : Option WebKey → InterferenceGraph
  | some web => live.foldl (·.addEdge web ·) graph
  | none => graph

/-- The graph with the webs that survive a call. -/
def noteCall (graph : InterferenceGraph) (survivors : Std.ExtTreeSet WebKey) :
    Option Inst → InterferenceGraph
  | some call => { graph with acrossCalls := graph.acrossCalls.insert call survivors }
  | none => graph

/-- To go over a statement is to link its web and to note its call. -/
theorem addStmt_eq {stmt : Inst} {command : Command}
    (hcommand : body.command? stmt = some command) (live : LiveReads) :
    addStmt body webs graph live stmt =
      .ok ((graph.linkLive (liveWebs webs live).toList webs.byDef[stmt]?).noteCall
        ((liveWebs webs live).filter fun web => some web ≠ webs.byDef[stmt]?)
        (command.callInst? stmt)) := by
  rw [addStmt, Body.callIn?_eq hcommand]
  cases webs.byDef[stmt]? <;> cases command.callInst? stmt <;> rfl

/-- What is linked with the live webs. -/
theorem interferes_linkLive {live : List WebKey} {defined : Option WebKey} {x y : WebKey} :
    (graph.linkLive live defined).interferes x y = true ↔
      (∃ web, defined = some web ∧ ∃ other ∈ live, other ≠ web ∧
        ((x = web ∧ y = other) ∨ (x = other ∧ y = web))) ∨ graph.interferes x y = true := by
  cases defined with
  | none => simp [linkLive]
  | some web => simp only [linkLive, interferes_addEdges, Option.some.injEq, exists_eq_left']

/-- To note a call changes no edge. -/
theorem interferes_noteCall {survivors : Std.ExtTreeSet WebKey} {call : Option Inst}
    {x y : WebKey} : (graph.noteCall survivors call).interferes x y = graph.interferes x y := by
  cases call <;> rfl

theorem edges_noteCall {survivors : Std.ExtTreeSet WebKey} {call : Option Inst} :
    (graph.noteCall survivors call).edges = graph.edges := by
  cases call <;> rfl

/-- To link webs changes no set of survivors. -/
theorem acrossCalls_linkLive {live : List WebKey} {defined : Option WebKey} :
    (graph.linkLive live defined).acrossCalls = graph.acrossCalls := by
  cases defined with
  | none => rfl
  | some web => exact acrossCalls_addEdges

/-- Edges stay among the webs of the body. -/
theorem bounded_linkLive (hbounded : Bounded webs graph) {live : List WebKey}
    {defined : Option WebKey} (hdefined : ∀ web, defined = some web → web.index < webs.webs.size)
    (hlive : ∀ web ∈ live, web.index < webs.webs.size) :
    Bounded webs (graph.linkLive live defined) := by
  cases defined with
  | none => exact hbounded
  | some web =>
      intro key hkey
      rcases mem_edges_addEdges hkey with hold | rfl | hmem
      · exact hbounded key hold
      · exact hdefined key rfl
      · exact hlive key hmem

/-- **ONE STATEMENT** is covered. -/
theorem addStmt_spec (hindexed : webs.Indexed) (hbounded : Bounded webs graph) {stmt : Inst}
    {command : Command} (hcommand : body.command? stmt = some command) (live : LiveReads) :
    ∃ after, addStmt body webs graph live stmt = .ok after ∧ Bounded webs after ∧
      Grows body [stmt] graph after ∧ Covers webs after stmt command live := by
  refine ⟨_, addStmt_eq hcommand live, ?_, ⟨fun hab => ?_, fun {call} hcall => ?_⟩,
    ⟨fun hdef hlive hne => ?_, fun hcall => ?_⟩⟩
  · rw [Bounded, edges_noteCall]
    refine bounded_linkLive hbounded (fun web hdef => ?_) fun web hweb => ?_
    · obtain ⟨found, hfound, -⟩ := hindexed.byDef.mp hdef
      exact (Array.getElem?_eq_some_iff.mp hfound).1
    · obtain ⟨access, -, huse⟩ := mem_liveWebs.mp (Std.ExtTreeSet.mem_toList.mp hweb)
      obtain ⟨found, hfound, -⟩ := hindexed.byUse.mp huse
      exact (Array.getElem?_eq_some_iff.mp hfound).1
  · rw [interferes_noteCall]
    exact interferes_linkLive.mpr (Or.inr hab)
  · have hown := hcall stmt List.mem_cons_self
    cases hmade : command.callInst? stmt with
    | none => exact congrArg (·[_]?) acrossCalls_linkLive
    | some made =>
        have hne : call ≠ made := fun heq =>
          hown (heq ▸ Body.callInst_mem_family hcommand hmade)
        show ((graph.linkLive _ _).acrossCalls.insert made _)[call]? = _
        rw [Maps.getElem?_insert_ne hne, acrossCalls_linkLive]
  · rw [interferes_noteCall, interferes_noteCall]
    have hmem := Std.ExtTreeSet.mem_toList.mpr hlive
    exact ⟨interferes_linkLive.mpr (Or.inl ⟨_, hdef, _, hmem, hne, Or.inl ⟨rfl, rfl⟩⟩),
      interferes_linkLive.mpr (Or.inl ⟨_, hdef, _, hmem, hne, Or.inr ⟨rfl, rfl⟩⟩)⟩
  · rw [hcall]
    refine ⟨_, Std.ExtTreeMap.getElem?_insert_self, fun web hweb hdef => ?_⟩
    rw [Std.ExtTreeSet.mem_filter]
    refine ⟨hweb, ?_⟩
    rw [Std.ExtTreeSet.get_eq]
    exact decide_eq_true fun heq => hdef heq.symm

/-! ## All statements -/

/-- Every statement of a run is covered, if `live` is live behind the run. -/
def CoversAll (body : Body) (webs : Webs) (graph : InterferenceGraph) (live : LiveReads)
    (stmts : List Inst) : Prop :=
  ∀ {before stmt rest command behind}, stmts = before ++ stmt :: rest →
    body.command? stmt = some command → LiveReads.stepsBackward body rest live = .ok behind →
    Covers webs graph stmt command behind

/-- One statement more. -/
def addStep (body : Body) (webs : Webs) (state : InterferenceGraph × LiveReads) (stmt : Inst) :
    Checked (InterferenceGraph × LiveReads) := do
  let graph ← addStmt body webs state.1 state.2 stmt
  let (_, live) ← LiveReads.stepBackward body stmt state.2
  return (graph, live)

/-- A block is gone over from its end to its start. -/
theorem addBlock_eq (body : Body) (liveness : Liveness) (webs : Webs) (graph : InterferenceGraph)
    (block : Block) : addBlock body liveness webs graph block = (do
      let live ← liveness.liveOut block
      Prod.fst <$> (body.stmtsOf block).reverse.foldlM (addStep body webs) (graph, live)) := by
  rw [addBlock]
  rfl

section

variable (wf : WellFormed body) (hindexed : webs.Indexed)
include wf hindexed

/-- The statements of a run are covered one by one, from the last one back. -/
theorem addStmts_spec {stmts : List Inst} (hstmts : ∀ stmt ∈ stmts, stmt ∈ body.stmts)
    (hnodup : stmts.Nodup) (hbounded : Bounded webs graph) (live : LiveReads) : ∃ after before,
      stmts.reverse.foldlM (addStep body webs) (graph, live) = .ok (after, before) ∧
      LiveReads.stepsBackward body stmts live = .ok before ∧ Bounded webs after ∧
      Grows body stmts.reverse graph after ∧ CoversAll body webs after live stmts := by
  -- by induction on the statements: those behind are covered first, and stay covered
  induction stmts with
  | nil =>
      refine ⟨graph, live, rfl, rfl, hbounded, Grows.refl body graph, ?_⟩
      intro before stmt rest command behind hsplit
      cases before <;> cases hsplit
  | cons first tail ih =>
      obtain ⟨hfirst, hnodup⟩ := List.nodup_cons.mp hnodup
      have htail : ∀ stmt ∈ tail, stmt ∈ body.stmts :=
        fun stmt hstmt => hstmts stmt (List.mem_cons_of_mem _ hstmt)
      obtain ⟨mid, behind, hmid, hsteps, hbounded', hgrows, hcovers⟩ := ih htail hnodup
      have hmem := hstmts first List.mem_cons_self
      obtain ⟨command, hcommand, hvalid⟩ := wf.commands first hmem
      obtain ⟨before, hbefore, -⟩ := LiveReads.stepBackward_spec hcommand hvalid behind
      obtain ⟨after, hafter, hbounded'', hgrows', hcovered⟩ :=
        addStmt_spec hindexed hbounded' hcommand behind
      have hstep : addStep body webs (mid, behind) first = .ok (after, before) := by
        rw [addStep, hafter]
        simp only [bind, Except.bind, hbefore]
        rfl
      refine ⟨after, before, ?_, ?_, hbounded'', ?_, ?_⟩
      · rw [List.reverse_cons, List.foldlM_append, hmid]
        simp only [bind, Except.bind, List.foldlM_cons, hstep]
        rfl
      · rw [LiveReads.stepsBackward_cons, hsteps]
        simp only [bind, Except.bind, hbefore]
        rfl
      · rw [List.reverse_cons]
        exact hgrows.trans hgrows'
      · intro front stmt rest command' behind' hsplit hcommand' hbehind'
        cases front with
        | nil =>
            cases hsplit
            rw [hcommand] at hcommand'
            cases hcommand'
            rw [hsteps] at hbehind'
            cases hbehind'
            exact hcovered
        | cons other front =>
            -- what is covered behind stays so, since this statement is another one
            injection hsplit with _ hsplit
            have hstmt : stmt ∈ tail := hsplit ▸ List.mem_append_right _ List.mem_cons_self
            refine (hcovers hsplit hcommand' hbehind').mono wf (htail stmt hstmt) hcommand' ?_ ?_
              hgrows'
            · intro other hother
              exact List.mem_singleton.mp hother ▸ hmem
            · intro hother
              exact hfirst (List.mem_singleton.mp hother ▸ hstmt)

/-- Some blocks. -/
theorem addBlocks_spec {liveness : Liveness} {blocks : List Block}
    (hinputs : ∀ block ∈ blocks, ∃ live, liveness.solution.inputs[block]? = some live)
    (hnodup : blocks.Nodup) (hbounded : Bounded webs graph) : ∃ after,
      blocks.foldlM (addBlock body liveness webs) graph = .ok after ∧ Bounded webs after ∧
      (∃ stmts, (∀ stmt ∈ stmts, ∃ block ∈ blocks, stmt ∈ body.stmtsOf block) ∧
        Grows body stmts graph after) ∧
      ∀ block ∈ blocks, ∀ live, liveness.solution.inputs[block]? = some live →
        CoversAll body webs after live (body.stmtsOf block) := by
  induction blocks generalizing graph with
  | nil =>
      refine ⟨graph, rfl, hbounded, ⟨[], ?_, Grows.refl body graph⟩, ?_⟩
      · intro stmt hstmt
        cases hstmt
      · intro block hblock
        cases hblock
  | cons first tail ih =>
      obtain ⟨hfirst, hnodup⟩ := List.nodup_cons.mp hnodup
      obtain ⟨live, hinput⟩ := hinputs first List.mem_cons_self
      obtain ⟨mid, before, hmid, -, hbounded', hgrows, hcovers⟩ := addStmts_spec wf hindexed
        (fun _ => Body.mem_stmts_of_stmtsOf) (wf.stmtsOf_nodup first) hbounded live
      have hstep : addBlock body liveness webs graph first = .ok mid := by
        rw [addBlock_eq, Liveness.liveOut, Solution.input, hinput]
        simp only [bind, Except.bind, hmid]
        rfl
      obtain ⟨after, hafter, hbounded'', ⟨stmts, hstmts, hgrows'⟩, hall⟩ := ih
        (fun block hblock => hinputs block (List.mem_cons_of_mem _ hblock)) hnodup hbounded'
      refine ⟨after, ?_, hbounded'', ⟨_, ?_, hgrows.trans hgrows'⟩,
        fun block hblock live' hinput' => ?_⟩
      · rw [List.foldlM_cons, hstep]
        exact hafter
      · intro stmt hstmt
        rcases List.mem_append.mp hstmt with hstmt | hstmt
        · exact ⟨first, List.mem_cons_self, List.mem_reverse.mp hstmt⟩
        · obtain ⟨block, hblock, hmem⟩ := hstmts stmt hstmt
          exact ⟨block, List.mem_cons_of_mem _ hblock, hmem⟩
      · rcases List.mem_cons.mp hblock with rfl | hblock
        · rw [hinput] at hinput'
          cases hinput'
          intro front stmt rest command behind hsplit hcommand hbehind
          have hmem : stmt ∈ body.stmtsOf block :=
            hsplit ▸ List.mem_append_right _ List.mem_cons_self
          refine (hcovers hsplit hcommand hbehind).mono wf (Body.mem_stmts_of_stmtsOf hmem) hcommand
            ?_ ?_ hgrows'
          · intro other hother
            obtain ⟨block', -, hmem'⟩ := hstmts other hother
            exact Body.mem_stmts_of_stmtsOf hmem'
          · intro hother
            obtain ⟨block', hblock', hmem'⟩ := hstmts stmt hother
            exact hfirst (wf.block_unique hmem' hmem ▸ hblock')
        · exact hall block hblock live' hinput'

end

/-! ## The graph of a body -/

/-- The graph without edges has the webs as its nodes. -/
theorem mem_isolated {pairs : List (WebKey × Web)}
    {edges : Std.ExtTreeMap WebKey (Std.ExtTreeSet WebKey)} {key : WebKey}
    (h : key ∈ pairs.foldl (fun edges pair => edges.insert pair.1 ∅) edges) :
    key ∈ edges ∨ key ∈ pairs.map Prod.fst := by
  induction pairs generalizing edges with
  | nil => exact Or.inl h
  | cons pair pairs ih =>
      rcases ih h with h | h
      · rcases Maps.mem_insert.mp h with rfl | h
        · exact Or.inr List.mem_cons_self
        · exact Or.inl h
      · exact Or.inr (List.mem_cons_of_mem _ h)

/-- Without edges all nodes are webs of the body. -/
theorem bounded_isolated (webs : Webs) : Bounded webs
    { edges := webs.toList.foldl (fun edges pair => edges.insert pair.1 ∅) ∅ } := by
  intro key hkey
  rcases mem_isolated hkey with hnone | hmem
  · exact absurd hnone Std.ExtTreeMap.not_mem_empty
  · obtain ⟨pair, hpair, rfl⟩ := List.mem_map.mp hmem
    rw [Webs.toList, List.mem_map] at hpair
    obtain ⟨⟨web, index⟩, hweb, rfl⟩ := hpair
    have hlt : index < 0 + webs.webs.toList.length := (List.mem_zipIdx hweb).2.1
    rw [Nat.zero_add, Array.length_toList] at hlt
    exact hlt

/-- **EVERY STATEMENT IS COVERED** in the interference graph of a well-formed body. -/
theorem compute_ok (wf : WellFormed body) {flow : FlowGraph} {liveness : Liveness}
    (h : liveness.Computed body flow) (hindexed : webs.Indexed) :
    ∃ graph, compute body liveness webs = .ok graph ∧ Bounded webs graph ∧
      ∀ {block rest stmt command live}, body.At block (stmt :: rest) →
        body.command? stmt = some command →
        LiveReads.Ahead body liveness.solution ⟨block, rest⟩ live →
        Covers webs graph stmt command live := by
  have hinputs : ∀ block ∈ body.blockKeys, ∃ live,
      liveness.solution.inputs[block]? = some live := by
    intro block hblock
    obtain ⟨-, hinput, -⟩ := h.settled (h.flow.blocks ▸ hblock)
    exact ⟨_, hinput⟩
  obtain ⟨graph, hgraph, hbounded, -, hall⟩ :=
    addBlocks_spec wf hindexed hinputs body.nodup_blockKeys (bounded_isolated webs)
  refine ⟨graph, hgraph, hbounded, ?_⟩
  intro block rest stmt command live hat hcommand hahead
  obtain ⟨before, hsplit, -⟩ := hat.reached
  obtain ⟨output, houtput, hsteps⟩ := hahead
  exact hall block (Body.mem_blockKeys.mpr hat.block_lt) output houtput hsplit hcommand hsteps

end InterferenceGraph

end DecafBackend
