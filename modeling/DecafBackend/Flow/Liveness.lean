import DecafBackend.Flow.Solver

/-! # Liveness

    A read is live at a point when the value that its location holds there
    may still reach it.  Only variables and temporaries of the method are
    tracked; other methods can see the rest.

    * `LiveReads` — the live reads at a point, as accesses
    * `LiveReads.stepBackward` — from the end of a statement to its start
    * `Liveness.compute` — the live reads at both ends of every block, and
      the reads that each definition reaches -/

namespace DecafBackend

/-- The reads that are live at a point: each is the location together with
    the record that reads it. -/
abbrev LiveReads := Std.ExtTreeSet Access

namespace LiveReads

/-- The records that read a location, in order. -/
def readers (live : LiveReads) (loc : Loc) : List Inst :=
  (live.toList.filter fun access => access.loc = loc).map Access.inst

/-- Every live location, in order, with its readers. -/
def byLocation (live : LiveReads) : List (Loc × List Inst) :=
  let locs : Std.ExtTreeSet Loc := live.toList.foldl (fun locs access => locs.insert access.loc) ∅
  locs.toList.map fun loc => (loc, live.readers loc)

/-- Moves back over a write: the location's earlier value reaches no read
    through it. -/
def kill (live : LiveReads) (loc : Loc) : LiveReads :=
  live.filter fun access => access.loc ≠ loc

/-- Moves back over reads. -/
def add (live : LiveReads) (reads : List Access) : LiveReads := reads.foldl (·.insert ·) live

/-- The reads of a statement that are tracked. -/
def trackedReads (body : Body) (stmt : Inst) : Checked (List Access) := do
  (← body.reads stmt).filterM fun access => body.isTracked access.loc

/-- Moves from the end of a statement to its start: over its write first,
    then over its reads.  If it writes a tracked location, the readers of
    that location are given as well. -/
def stepBackward (body : Body) (stmt : Inst) (live : LiveReads) :
    Checked (Option (List Inst) × LiveReads) := do
  match (← body.record stmt).dest? with
  | some dest =>
    if ← body.isTracked dest then
      let reads ← trackedReads body stmt
      return (some (live.readers dest), (live.kill dest).add reads)
    else return (none, live.add (← trackedReads body stmt))
  | none => return (none, live.add (← trackedReads body stmt))

/-- Moves from the end of a run of statements to its start. -/
def stepsBackward (body : Body) (stmts : List Inst) (live : LiveReads) : Checked LiveReads :=
  stmts.reverse.foldlM (fun live stmt => Prod.snd <$> stepBackward body stmt live) live

/-- Liveness as a dataflow problem. -/
def analysis (body : Body) : Analysis LiveReads where
  direction := .backward
  initial := ∅
  bottom := ∅
  join live other := live ∪ other
  transfer block := stepsBackward body (body.stmtsOf block)

end LiveReads

/-- The live reads of a body, and what its definitions reach. -/
structure Liveness where
  /-- The live reads at the ends of every block. -/
  solution : Solution LiveReads
  /-- The reads that each definition of a tracked location reaches. -/
  reached : Std.ExtTreeMap Inst (List Inst)

namespace Liveness

/-- A number of evaluations after which liveness has settled: the output of
    a block changes at most once per read, and each change makes other
    blocks pending. -/
def stepBound (body : Body) (graph : FlowGraph) : Checked Nat := do
  let reads ← body.stmts.mapM body.reads
  let blocks := graph.blocks.length
  return blocks + blocks * blocks * (reads.flatten.length + 2)

/-- Collects what the definitions of a run of statements reach, from its
    last statement back. -/
def collectReached (body : Body) (reached : Std.ExtTreeMap Inst (List Inst)) (live : LiveReads)
    (stmts : List Inst) : Checked (Std.ExtTreeMap Inst (List Inst)) := do
  let (reached, _) ← stmts.reverse.foldlM (fun (reached, live) stmt => do
    let (readers, live) ← LiveReads.stepBackward body stmt live
    match readers with
    | some readers => return (reached.insert stmt readers, live)
    | none => return (reached, live)) (reached, live)
  return reached

/-- Solves liveness for a body. -/
def compute (body : Body) (graph : FlowGraph) : Checked Liveness := do
  let solution ← solve (← stepBound body graph) graph (LiveReads.analysis body)
  let reached ← body.blockKeys.foldlM (fun reached block => do
    collectReached body reached (← solution.input block) (body.stmtsOf block)) ∅
  return { solution, reached }

/-- Liveness in the flow graph of a body. -/
def ofBody (body : Body) : Checked Liveness := do compute body (← FlowGraph.ofBody body)

/-- The live reads at the start of a block. -/
def liveIn (liveness : Liveness) (block : Block) : Checked LiveReads :=
  liveness.solution.output block

/-- The live reads at the end of a block. -/
def liveOut (liveness : Liveness) (block : Block) : Checked LiveReads :=
  liveness.solution.input block

/-- The reads that a definition reaches; none for other records. -/
def reachedBy (liveness : Liveness) (definition : Inst) : List Inst :=
  liveness.reached[definition]?.getD []

/-- Whether a record defines a tracked location that nothing reads then. -/
def isDead (liveness : Liveness) (definition : Inst) : Bool :=
  liveness.reached[definition]? == some []

/-- The definitions of tracked locations with the reads they reach, in
    order. -/
def definitions (liveness : Liveness) : List (Inst × List Inst) := liveness.reached.toList

end Liveness

end DecafBackend
