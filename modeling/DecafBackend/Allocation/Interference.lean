import DecafBackend.Allocation.Web

/-! # Interference

    Two webs interfere when one is defined while the other is live: they
    cannot share a register.  For every call, the webs that are live after
    it, other than the one it defines, have to survive it. -/

namespace DecafBackend

/-- Which webs interfere, and which survive each call. -/
structure InterferenceGraph where
  /-- The webs that each web interferes with. -/
  edges : Std.ExtTreeMap WebKey (Std.ExtTreeSet WebKey) := ∅
  /-- The webs needed after each call. -/
  acrossCalls : Std.ExtTreeMap Inst (Std.ExtTreeSet WebKey) := ∅

namespace InterferenceGraph

/-- The webs that a web interferes with. -/
def neighbourSet (graph : InterferenceGraph) (web : WebKey) : Std.ExtTreeSet WebKey :=
  graph.edges[web]?.getD ∅

/-- Records one direction of an edge. -/
def addArc (graph : InterferenceGraph) (a b : WebKey) : InterferenceGraph :=
  { graph with edges := graph.edges.insert a ((graph.neighbourSet a).insert b) }

/-- Records that two webs interfere; a web never interferes with itself. -/
def addEdge (graph : InterferenceGraph) (a b : WebKey) : InterferenceGraph :=
  if a = b then graph else (graph.addArc a b).addArc b a

/-- Whether two webs interfere. -/
def interferes (graph : InterferenceGraph) (a b : WebKey) : Bool :=
  (graph.neighbourSet a).contains b

/-- The webs that a web interferes with, in order. -/
def neighbours (graph : InterferenceGraph) (web : WebKey) : List WebKey :=
  (graph.neighbourSet web).toList

/-- The number of webs that a web interferes with. -/
def degree (graph : InterferenceGraph) (web : WebKey) : Nat := (graph.neighbourSet web).size

/-- The webs of the graph, in order. -/
def nodes (graph : InterferenceGraph) : List WebKey := graph.edges.keys

/-- The webs of live reads. -/
def liveWebs (webs : Webs) (live : LiveReads) : Std.ExtTreeSet WebKey :=
  live.toList.foldl (fun found access =>
    match webs.byUse[access]? with
    | some web => found.insert web
    | none => found) ∅

/-- Adds what a statement contributes, given the reads live after it. -/
def addStmt (body : Body) (webs : Webs) (graph : InterferenceGraph) (live : LiveReads)
    (stmt : Inst) : Checked InterferenceGraph := do
  let defined := webs.byDef[stmt]?
  let live := liveWebs webs live
  let graph := match defined with
    | some web => live.toList.foldl (·.addEdge web ·) graph
    | none => graph
  match ← body.callIn? stmt with
  | none => return graph
  | some call =>
    let survivors := live.filter fun web => some web ≠ defined
    return { graph with acrossCalls := graph.acrossCalls.insert call survivors }

/-- Adds what the statements of a block contribute, from the last one back. -/
def addBlock (body : Body) (liveness : Liveness) (webs : Webs) (graph : InterferenceGraph)
    (block : Block) : Checked InterferenceGraph := do
  let live ← liveness.liveOut block
  let (graph, _) ← (body.stmtsOf block).reverse.foldlM (fun (graph, live) stmt => do
    let graph ← addStmt body webs graph live stmt
    let (_, live) ← LiveReads.stepBackward body stmt live
    return (graph, live)) (graph, live)
  return graph

/-- The interference graph of a body. -/
def compute (body : Body) (liveness : Liveness) (webs : Webs) : Checked InterferenceGraph :=
  let isolated : InterferenceGraph :=
    { edges := webs.toList.foldl (fun edges (web, _) => edges.insert web ∅) ∅ }
  body.blockKeys.foldlM (addBlock body liveness webs) isolated

/-- The interference graph that a body's own liveness and webs give. -/
def ofBody (body : Body) : Checked InterferenceGraph := do
  let liveness ← Liveness.ofBody body
  compute body liveness (← Webs.compute body liveness)

end InterferenceGraph

end DecafBackend
