import DecafBackend.Allocation.Interference

/-! # Coloring

    Webs are taken off the graph one by one: the first web with fewer
    neighbours left than there are registers, or, if there is none, the web
    with the most neighbours left per access.  In the opposite order, each
    web then gets the first register that none of its neighbours has, or is
    spilled if all are taken.  Webs without definitions take no part. -/

namespace DecafBackend

/-- The registers given to webs, and the webs left without one. -/
structure Coloring where
  /-- The register of each colored web. -/
  colors : Std.ExtTreeMap WebKey Register := ∅
  /-- The webs that found no register. -/
  spilled : Std.ExtTreeSet WebKey := ∅

namespace Coloring

/-- The webs of a graph that have definitions, in order. -/
def candidates (graph : InterferenceGraph) (webs : Webs) : Checked (List WebKey) :=
  graph.nodes.filterM fun web => return !(← webs.get web).isDefless

/-- A web still on the graph. -/
structure Node where
  /-- The web. -/
  web : WebKey
  /-- The number of its accesses, at least one. -/
  cost : Nat
  /-- The number of its neighbours that are still on the graph. -/
  degree : Nat

/-- The nodes of the graph on webs with definitions. -/
def initialNodes (graph : InterferenceGraph) (webs : Webs) : Checked (List Node) := do
  let candidates ← candidates graph webs
  candidates.mapM fun web => do
    let cost := Nat.max (← webs.get web).accessCount 1
    return { web, cost, degree := (graph.neighbours web).countP candidates.contains }

/-- The node with the most neighbours per access; the first one of equals. -/
def spillCandidate : Node → List Node → Node
  | best, [] => best
  | best, node :: rest =>
    if node.degree * best.cost ≤ best.degree * node.cost then spillCandidate best rest
    else spillCandidate node rest

/-- The node to take off the graph next. -/
def pick (colors : Nat) (first : Node) (rest : List Node) : Node :=
  match (first :: rest).find? fun node => node.degree < colors with
  | some node => node
  | none => spillCandidate first rest

/-- The nodes left when a web is taken off the graph. -/
def removeWeb (graph : InterferenceGraph) (web : WebKey) (nodes : List Node) : List Node :=
  (nodes.filter fun node => node.web ≠ web).map fun node =>
    if graph.interferes web node.web then { node with degree := node.degree - 1 } else node

/-- Takes at most `count` webs off the graph and lists them, the last one
    taken first. -/
def simplify (graph : InterferenceGraph) (colors : Nat) :
    Nat → List Node → List WebKey → List WebKey
  | 0, _, stack => stack
  | _, [], stack => stack
  | count + 1, first :: rest, stack =>
    let web := (pick colors first rest).web
    simplify graph colors count (removeWeb graph web (first :: rest)) (web :: stack)

/-- Gives a web the first register that no neighbour has. -/
def select (graph : InterferenceGraph) (palette : List Register) (coloring : Coloring)
    (web : WebKey) : Coloring :=
  let taken := (graph.neighbours web).filterMap fun other => coloring.colors[other]?
  match palette.find? fun register => !taken.contains register with
  | some register => { coloring with colors := coloring.colors.insert web register }
  | none => { coloring with spilled := coloring.spilled.insert web }

/-- Colors a graph with the registers of a palette. -/
def compute (graph : InterferenceGraph) (webs : Webs) (palette : List Register) :
    Checked Coloring := do
  let nodes ← initialNodes graph webs
  let stack := simplify graph palette.length nodes.length nodes []
  return stack.foldl (select graph palette) {}

end Coloring

end DecafBackend
