import DecafBackend.IR.Body

/-! # Flow graphs

    The last statement of a block decides where control goes: a jump goes to
    its target, a branch to its target or to the next block, a return or an
    exit nowhere, and anything else to the next block.

    * `Body.successors` — the edges
    * `FlowGraph` — the edges together with a depth-first post-order
    * `postorder` — blocks that the entry does not reach come first, so that
      they come last in the reverse order -/

namespace DecafBackend

/-- The blocks that control can reach directly from a block, without
    repetition. -/
def Body.successors (body : Body) (block : Block) : Checked (List Block) := do
  let next := (body.next? block).toList
  match (body.stmtsOf block).getLast? with
  | none => return next
  | some last =>
    match ← body.record last with
    | .jump target => return (← body.labelBlock target).toList
    | .branch _ target => return ((← body.labelBlock target).toList ++ next).eraseDups
    | .ret _ | .exit _ => return []
    | _ => return next

/-- The flow graph of a body. -/
structure FlowGraph where
  /-- The blocks in order; the first one is the entry. -/
  blocks : List Block
  /-- The successors of each block, at the index of the block. -/
  successorLists : Array (List Block)

namespace FlowGraph

/-- Tests that edges lead to blocks of a body that has `count` blocks. -/
def checkEdges (count : Nat) (targets : List Block) : Checked (List Block) :=
  match targets.find? fun target => count ≤ target.index with
  | none => .ok targets
  | some target => .error (.absentEntry target.describe)

/-- The flow graph of a body. -/
def ofBody (body : Body) : Checked FlowGraph := do
  let lists ← body.blockKeys.mapM fun block => do
    checkEdges body.blocks.size (← body.successors block)
  return { blocks := body.blockKeys, successorLists := lists.toArray }

/-- The entry block, if there are blocks. -/
def entry? (graph : FlowGraph) : Option Block := graph.blocks.head?

/-- The blocks that control can reach directly from a block. -/
def successors (graph : FlowGraph) (block : Block) : List Block :=
  graph.successorLists[block.index]?.getD []

/-- The blocks from which control can reach a block directly, in order. -/
def predecessors (graph : FlowGraph) (block : Block) : List Block :=
  graph.blocks.filter fun other => (graph.successors other).contains block

/-! ## Post-order -/

/-- The blocks that a depth-first search has seen, and those it has
    finished, in the order in which it finished them. -/
structure Search where
  /-- The blocks seen so far. -/
  seen : List Block := []
  /-- The blocks finished so far. -/
  finished : List Block := []

/-- Searches from a block, unless it was seen before: first from its
    successors in order, then the block is finished.  Every level of the
    search sees a new block, so the number of blocks bounds its depth. -/
def visit (graph : FlowGraph) : Nat → Search → Block → Search
  | 0, search, _ => search
  | depth + 1, search, block =>
    if search.seen.contains block then search
    else
      let search := (graph.successors block).foldl (visit graph depth)
        { search with seen := block :: search.seen }
      { search with finished := search.finished ++ [block] }

/-- The blocks in the order in which a search from the entry, and then from
    the other blocks in order, finishes them. -/
def finishOrder (graph : FlowGraph) : List Block :=
  (graph.blocks.foldl (graph.visit graph.blocks.length) {}).finished

/-- Every block, each after its successors except along back edges, with the
    blocks that the entry does not reach in front. -/
def postorder (graph : FlowGraph) : List Block :=
  let order := graph.finishOrder
  match graph.entry? with
  | none => order
  | some entry =>
    let reached := order.idxOf entry + 1
    order.drop reached ++ order.take reached

/-- Every block, each before its successors except along back edges. -/
def reversePostorder (graph : FlowGraph) : List Block := graph.postorder.reverse

end FlowGraph

end DecafBackend
