import DecafBackend.Json.Containers
import DecafBackend.Layout.Linked

/-! # Linked layouts as JSON

    The links are written as they are stored. -/

namespace DecafBackend

/-- The links of a statement as JSON. -/
def InstLinks.toJson (links : InstLinks) : Json :=
  .object [("prev", links.prev.toJson), ("next", links.next.toJson)]

/-- Reads the links of a statement. -/
def InstLinks.ofJson? (json : Json) : Option InstLinks := do
  match ← json.record? ["prev", "next"] with
  | [prev, next] =>
    return ⟨← Json.field OptionalKey.ofJson? prev, ← Json.field OptionalKey.ofJson? next⟩
  | _ => none

/-- The links of a block as JSON. -/
def BlockLinks.toJson (links : BlockLinks) : Json :=
  .object [("prev", links.prev.toJson), ("next", links.next.toJson),
    ("first", links.first.toJson), ("last", links.last.toJson)]

/-- Reads the links of a block. -/
def BlockLinks.ofJson? (json : Json) : Option BlockLinks := do
  match ← json.record? ["prev", "next", "first", "last"] with
  | [prev, next, first, last] =>
    return ⟨← Json.field OptionalKey.ofJson? prev, ← Json.field OptionalKey.ofJson? next,
      ← Json.field OptionalKey.ofJson? first, ← Json.field OptionalKey.ofJson? last⟩
  | _ => none

/-- A layout as JSON. -/
def LinkedLayout.toJson (layout : LinkedLayout) : Json :=
  .object [("blocks", layout.blocks.toJson BlockLinks.toJson),
    ("nodes", layout.nodes.toJson InstLinks.toJson),
    ("inst_blocks", layout.owners.toJson Key.toJson),
    ("head", layout.head.toJson), ("tail", layout.tail.toJson)]

/-- Reads a layout. -/
def LinkedLayout.ofJson? (json : Json) : Option LinkedLayout := do
  match ← json.record? ["blocks", "nodes", "inst_blocks", "head", "tail"] with
  | [blocks, nodes, owners, head, tail] =>
    return {
      blocks := ← Json.field (SlotMap.ofJson? BlockLinks.ofJson?) blocks
      nodes := ← Json.field (SlotMap.ofJson? InstLinks.ofJson?) nodes
      owners := ← Json.field (SlotMap.ofJson? Key.ofJson?) owners
      head := ← Json.field OptionalKey.ofJson? head
      tail := ← Json.field OptionalKey.ofJson? tail }
  | _ => none

end DecafBackend
