import DecafBackend.Allocation.Registers
import DecafBackend.IR.Serialized
import DecafBackend.Machine.Frame

/-! # Inspection

    JSON views of a body and of what is computed from it, for tools that show
    them: its records and blocks, the flow graph, liveness, webs and their
    interference, the coloring, the bindings, and the stack frame. -/

namespace DecafBackend.Inspect

/-! ## Bodies -/

/-- Every record, with what it is and what it names. -/
def records (body : Body) : List Json :=
  body.records.toList.zipIdx.map fun (record, index) =>
    .object [("debug", json record.describe),
      ("is", json [record.isValue, record.isTerminator, record.endsBlock]),
      ("target", json record.target?), ("operands", json record.operands),
      ("def", json record.dest?), ("in_layout", json (body.isPlaced ⟨index⟩))]

/-- What a location is, and how it can be used. -/
def location (location : Location) : String × List Bool :=
  (location.describe, [location.isAllocatable, location.isGlobal, location.isWritable])

/-- Every location. -/
def locations (body : Body) : Json :=
  json (body.locations.toList.zipIdx.map fun (data, index) => (index, location data))

/-- The blocks with their statements, from either end. -/
def blocks (body : Body) : Json :=
  let summary := Text.map (body.blockKeys.map fun block =>
    (block.describe, Text.list ((body.stmtsOf block).map Key.describe)))
  let parts := body.blocks.toList.zipIdx.map fun (basic, index) =>
    Json.object [("block", json index), ("label", json basic.label),
      ("insts", json basic.stmts), ("reversed", json basic.stmts.reverse)]
  .object [("debug", json summary), ("len", json (body.blocks.size, body.stmts.length)),
    ("blocks", json parts)]

/-- What is known of the operator that a record applies. -/
def operator : Record → Json
  | .binary op _ _ => json (op.mnemonic, op.isCommutative, op.isComparison)
  | .unary op _ => json [op.mnemonic]
  | _ => .null

/-! ## Analyses -/

/-- The edges of the flow graph, and its orders. -/
def flow (graph : FlowGraph) : Json :=
  .object [("entry", json graph.entry?),
    ("blocks", json (graph.blocks.map fun block =>
      (block, graph.predecessors block, graph.successors block))),
    ("postorder", json graph.postorder), ("reverse_postorder", json graph.reversePostorder)]

/-- The live reads at both ends of every block, and what definitions reach. -/
def liveness (body : Body) (liveness : Liveness) : Checked Json := do
  let blocks ← body.blockKeys.mapM fun block => do
    return (block, (← liveness.liveIn block).byLocation, (← liveness.liveOut block).byLocation)
  let reached := liveness.definitions.map fun (definition, reads) =>
    (definition, reads, liveness.isDead definition)
  return .object [("blocks", json blocks), ("reached", json reached)]

/-! ## Allocation -/

/-- Every web, and whether its accesses lead back to it. -/
def webs (webs : Webs) : List Json :=
  webs.toList.map fun (key, web) =>
    let isConsistent := web.defs.toList.all (fun inst => webs.byDef[inst]? == some key) &&
      web.uses.toList.all fun inst => webs.byUse[Access.mk inst web.loc]? == some key
    .object [("web", json key), ("loc", json web.loc), ("defs", json web.defs.toList),
      ("uses", json web.uses.toList), ("defless", json web.isDefless),
      ("accesses", json web.accessCount), ("consistent", json isConsistent)]

/-- The neighbours of every web, and the webs that survive every call. -/
def interference (graph : InterferenceGraph) : Json :=
  .object [
    ("nodes", json (graph.nodes.map fun web => (web, graph.degree web, graph.neighbours web))),
    ("across_calls", json (graph.acrossCalls.toList.map fun (call, webs) =>
      (call, webs.toList)))]

/-- The register of every colored web, and the webs without one. -/
def coloring (coloring : Coloring) : Json :=
  .object [("colors", json coloring.colors.toList), ("spilled", json coloring.spilled.toList)]

/-- The counts of an allocation. -/
def summary (summary : AllocationSummary) : Json :=
  .object [("webs", json summary.webs), ("colored", json summary.colored),
    ("spilled", json summary.spilled)]

/-- The bound accesses, and the registers to preserve. -/
def bindings (bindings : Bindings) : List (String × Json) :=
  [("bindings", json (bindings.toList.map fun (access, register) =>
      (access.inst, access.loc, register))),
    ("callee_saved", json bindings.calleeSaved.toList),
    ("len", json bindings.registers.size), ("empty", json bindings.registers.isEmpty)]

/-- The offsets and sizes of a frame: of the first nine arguments, of every
    slot, and of the whole with up to four words pushed. -/
def frame (frame : Frame) : Checked Json := do
  let params ← (List.range 9).mapM frame.param?
  let allocation ← (List.range 5).mapM frame.allocationSize
  return .object [("params", json params), ("register_params", json frame.params),
    ("slots", json frame.slots.toList), ("size", json frame.size),
    ("len", json frame.slots.size), ("empty", json frame.slots.isEmpty),
    ("allocation", json allocation)]

end DecafBackend.Inspect
