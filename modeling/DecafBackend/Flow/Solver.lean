import DecafBackend.Flow.Graph

/-! # Dataflow

    An analysis computes a state for both ends of every block.  The state
    that enters a block's transfer is the join of the outputs of its
    neighbours: of its predecessors in a forward analysis, of its successors
    in a backward one.  A neighbour without an output contributes nothing.
    The solver evaluates blocks from a worklist until no output changes.

    * `Analysis` — direction, boundary states, join and transfer
    * `contributions`, `joinInputs` — the states that enter a block
    * `Worklist.step`, `solve` — one evaluation, and all of them -/

namespace DecafBackend

/-- Which way facts flow. -/
inductive Direction
  /-- From predecessors to successors. -/
  | forward
  /-- From successors to predecessors. -/
  | backward
deriving DecidableEq

/-- A dataflow problem with states in `σ`. -/
structure Analysis (σ : Type) where
  /-- Which way facts flow. -/
  direction : Direction
  /-- The state at the boundary of the method: at the entry of a forward
      analysis, at blocks without successors in a backward one. -/
  initial : σ
  /-- The state of a block that nothing flows into. -/
  bottom : σ
  /-- Merges two states. -/
  join : σ → σ → σ
  /-- The output of a block, given its input. -/
  transfer : Block → σ → Checked σ

/-- The states of every block.  The input of a block is what enters its
    transfer, which in a backward analysis is the state at its end. -/
structure Solution (σ : Type) where
  /-- The state that enters each block's transfer. -/
  inputs : Std.ExtTreeMap Block σ := ∅
  /-- The state that each block's transfer produced. -/
  outputs : Std.ExtTreeMap Block σ := ∅
  /-- The number of evaluations so far. -/
  iterations : Nat := 0

namespace Solution

variable {σ : Type}

/-- The input that a block must have. -/
def input (solution : Solution σ) (block : Block) : Checked σ :=
  match solution.inputs[block]? with
  | some state => .ok state
  | none => .error (.absentEntry block.describe)

/-- The output that a block must have. -/
def output (solution : Solution σ) (block : Block) : Checked σ :=
  match solution.outputs[block]? with
  | some state => .ok state
  | none => .error (.absentEntry block.describe)

end Solution

namespace Analysis

variable {σ : Type}

/-- Whether a block is at the boundary. -/
def isBoundary (analysis : Analysis σ) (graph : FlowGraph) (block : Block) : Bool :=
  match analysis.direction with
  | .forward => graph.entry? == some block
  | .backward => (graph.successors block).isEmpty

/-- The blocks whose outputs enter a block. -/
def neighbours (analysis : Analysis σ) (graph : FlowGraph) (block : Block) : List Block :=
  match analysis.direction with
  | .forward => graph.predecessors block
  | .backward => graph.successors block

/-- The blocks that a block's output enters. -/
def dependents (analysis : Analysis σ) (graph : FlowGraph) (block : Block) : List Block :=
  match analysis.direction with
  | .forward => graph.successors block
  | .backward => graph.predecessors block

/-- The order in which blocks are evaluated first. -/
def order (analysis : Analysis σ) (graph : FlowGraph) : List Block :=
  match analysis.direction with
  | .forward => graph.reversePostorder
  | .backward => graph.postorder

/-- The states that enter a block: the initial state if it is at the
    boundary, then the outputs of its neighbours in order. -/
def contributions (analysis : Analysis σ) (graph : FlowGraph) (solution : Solution σ)
    (block : Block) : List σ :=
  (if analysis.isBoundary graph block then [analysis.initial] else []) ++
    (analysis.neighbours graph block).filterMap fun other => solution.outputs[other]?

/-- The join of the states that enter a block. -/
def joinInputs (analysis : Analysis σ) (graph : FlowGraph) (solution : Solution σ)
    (block : Block) : σ :=
  match analysis.contributions graph solution block with
  | [] => analysis.bottom
  | state :: rest => rest.foldl analysis.join state

end Analysis

/-- A solution in progress, with the blocks still to be evaluated. -/
structure Worklist (σ : Type) where
  /-- The states found so far. -/
  solution : Solution σ
  /-- The blocks to evaluate, each once, in order. -/
  pending : List Block

namespace Worklist

variable {σ : Type}

/-- Adds blocks at the end, except those that are pending already. -/
def enqueue (pending : List Block) (blocks : List Block) : List Block :=
  blocks.foldl (fun pending block =>
    if pending.contains block then pending else pending ++ [block]) pending

/-- Evaluates a block that was taken from the worklist. -/
def step [DecidableEq σ] (graph : FlowGraph) (analysis : Analysis σ) (solution : Solution σ)
    (block : Block) (pending : List Block) : Checked (Worklist σ) := do
  let input := analysis.joinInputs graph solution block
  let output ← analysis.transfer block input
  let solution := { solution with
    inputs := solution.inputs.insert block input
    iterations := solution.iterations + 1 }
  if solution.outputs[block]? = some output then return ⟨solution, pending⟩
  else
    return ⟨{ solution with outputs := solution.outputs.insert block output },
      enqueue pending (analysis.dependents graph block)⟩

/-- Evaluates blocks until none is pending, at most `steps` times. -/
def run [DecidableEq σ] (graph : FlowGraph) (analysis : Analysis σ) :
    Nat → Worklist σ → Checked (Solution σ)
  | _, ⟨solution, []⟩ => .ok solution
  | 0, ⟨_, _ :: _⟩ => .error .unsettled
  | steps + 1, ⟨solution, block :: pending⟩ => do
    run graph analysis steps (← step graph analysis solution block pending)

end Worklist

/-- The states of every block, if the worklist empties within `steps`
    evaluations. -/
def solve {σ : Type} [DecidableEq σ] (steps : Nat) (graph : FlowGraph) (analysis : Analysis σ) :
    Checked (Solution σ) :=
  Worklist.run graph analysis steps ⟨{}, analysis.order graph⟩

end DecafBackend
