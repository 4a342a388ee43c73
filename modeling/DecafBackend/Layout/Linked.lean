import DecafBackend.IR.Record
import DecafBackend.Key.Optional
import DecafBackend.SlotMap

/-! # Linked layouts

    The order of blocks, and of the statements in each block, kept as doubly
    linked lists over slot maps, so that statements can be spliced in and
    taken out in constant time.

    * `LinkedLayout` — the links
    * `appendInst`, `insertBefore`, `insertAfter`, `replaceInst`, `removeInst`,
      `appendBlock` — the edits
    * `Cursor` — the part of a block that is not yet listed from either end
    * `blockList`, `instList` — the orders that the links describe -/

namespace DecafBackend

/-- The neighbours of a statement in its block. -/
structure InstLinks where
  /-- The statement before it. -/
  prev : OptionalKey .inst
  /-- The statement after it. -/
  next : OptionalKey .inst
deriving DecidableEq

/-- The neighbours of a block, and its first and last statement. -/
structure BlockLinks where
  /-- The block before it. -/
  prev : OptionalKey .block
  /-- The block after it. -/
  next : OptionalKey .block
  /-- Its first statement. -/
  first : OptionalKey .inst
  /-- Its last statement. -/
  last : OptionalKey .inst
deriving DecidableEq

/-- The order of blocks and statements, as links. -/
structure LinkedLayout where
  /-- The links of each block. -/
  blocks : SlotMap .block BlockLinks := {}
  /-- The links of each statement. -/
  nodes : SlotMap .inst InstLinks := {}
  /-- The block of each statement. -/
  owners : SlotMap .inst Block := {}
  /-- The first block. -/
  head : OptionalKey .block := .none
  /-- The last block. -/
  tail : OptionalKey .block := .none
deriving DecidableEq

namespace LinkedLayout

/-! ## Edits -/

/-- Changes the links of a statement that must be placed. -/
def modifyNode (layout : LinkedLayout) (inst : Inst) (f : InstLinks → InstLinks) :
    Checked LinkedLayout := do
  return { layout with nodes := ← layout.nodes.modify inst fun links => return f links }

/-- Changes the links of a block that must be placed. -/
def modifyBlock (layout : LinkedLayout) (block : Block) (f : BlockLinks → BlockLinks) :
    Checked LinkedLayout := do
  return { layout with blocks := ← layout.blocks.modify block fun links => return f links }

/-- Changes the links of the block that a statement is in. -/
def modifyOwner (layout : LinkedLayout) (inst : Inst) (f : BlockLinks → BlockLinks) :
    Checked LinkedLayout := do
  layout.modifyBlock (← layout.owners.get inst) f

/-- Adds the links of a statement. -/
def insertNode (layout : LinkedLayout) (inst : Inst) (block : Block) (links : InstLinks) :
    Checked LinkedLayout := do
  let (_, nodes) ← layout.nodes.insert inst links
  let (_, owners) ← layout.owners.insert inst block
  return { layout with nodes, owners }

/-- Tests that a statement is not placed. -/
def checkFresh (layout : LinkedLayout) (inst : Inst) : Checked Unit :=
  if layout.nodes.contains inst then .error .statementPlacedTwice else .ok ()

/-- Places a statement at the end of a block. -/
def appendInst (layout : LinkedLayout) (inst : Inst) (block : Block) : Checked LinkedLayout := do
  layout.checkFresh inst
  let links ← layout.blocks.get block
  let (prev, last) ← links.last.replace inst
  let layout ← layout.modifyBlock block fun links => { links with last }
  let layout ← match prev with
    | some prev => layout.modifyNode prev fun links => { links with next := last }
    | none => layout.modifyBlock block fun links => { links with first := last }
  layout.insertNode inst block ⟨← OptionalKey.ofOption prev, .none⟩

/-- Places a statement directly before another one. -/
def insertBefore (layout : LinkedLayout) (inst before : Inst) : Checked LinkedLayout := do
  layout.checkFresh inst
  let links ← layout.nodes.get before
  let (after, prev) ← links.prev.replace inst
  let layout ← layout.modifyNode before fun links => { links with prev }
  let layout ← match after with
    | some after => layout.modifyNode after fun links => { links with next := prev }
    | none => layout.modifyOwner before fun links => { links with first := prev }
  let block ← layout.owners.get before
  layout.insertNode inst block ⟨← OptionalKey.ofOption after, ← OptionalKey.some before⟩

/-- Places a statement directly after another one. -/
def insertAfter (layout : LinkedLayout) (inst after : Inst) : Checked LinkedLayout := do
  layout.checkFresh inst
  let links ← layout.nodes.get after
  let (before, next) ← links.next.replace inst
  let layout ← layout.modifyNode after fun links => { links with next }
  let layout ← match before with
    | some before => layout.modifyNode before fun links => { links with prev := next }
    | none => layout.modifyOwner after fun links => { links with last := next }
  let block ← layout.owners.get after
  layout.insertNode inst block ⟨← OptionalKey.some after, ← OptionalKey.ofOption before⟩

/-- Takes a statement out. -/
def removeInst (layout : LinkedLayout) (inst : Inst) : Checked LinkedLayout := do
  let links ← layout.nodes.get inst
  let layout ← match links.prev.toOption with
    | some prev => layout.modifyNode prev fun other => { other with next := links.next }
    | none => layout.modifyOwner inst fun block => { block with first := links.next }
  let layout ← match links.next.toOption with
    | some next => layout.modifyNode next fun other => { other with prev := links.prev }
    | none => layout.modifyOwner inst fun block => { block with last := links.prev }
  let (_, nodes) ← layout.nodes.remove inst
  let (_, owners) ← layout.owners.remove inst
  return { layout with nodes, owners }

/-- Puts a statement where another one stands, and takes that one out. -/
def replaceInst (layout : LinkedLayout) (old new : Inst) : Checked LinkedLayout := do
  (← layout.insertAfter new old).removeInst old

/-- Places a block at the end. -/
def appendBlock (layout : LinkedLayout) (block : Block) : Checked LinkedLayout := do
  if layout.blocks.contains block then throw .blockPlacedTwice
  let (prev, tail) ← layout.tail.replace block
  let layout := { layout with tail }
  let layout ← match prev with
    | some prev => layout.modifyBlock prev fun links => { links with next := tail }
    | none => pure { layout with head := tail }
  let (_, blocks) ← layout.blocks.insert block ⟨← OptionalKey.ofOption prev, .none, .none, .none⟩
  return { layout with blocks }

/-! ## Queries -/

/-- The number of blocks. -/
def blockCount (layout : LinkedLayout) : Nat := layout.blocks.count

/-- The number of statements. -/
def instCount (layout : LinkedLayout) : Nat := layout.nodes.count

/-- Whether a statement is placed. -/
def isPlaced (layout : LinkedLayout) (inst : Inst) : Bool := layout.nodes.contains inst

/-- The first block. -/
def entry? (layout : LinkedLayout) : Option Block := layout.head.toOption

/-- The block after a block. -/
def blockNext (layout : LinkedLayout) (block : Block) : Checked (Option Block) := do
  return (← layout.blocks.get block).next.toOption

/-- The first statement of a block. -/
def blockFirst (layout : LinkedLayout) (block : Block) : Checked (Option Inst) := do
  return (← layout.blocks.get block).first.toOption

/-- The last statement of a block. -/
def blockLast (layout : LinkedLayout) (block : Block) : Checked (Option Inst) := do
  return (← layout.blocks.get block).last.toOption

/-- The statement after a statement. -/
def instNext (layout : LinkedLayout) (inst : Inst) : Checked (Option Inst) := do
  return (← layout.nodes.get inst).next.toOption

/-- The statement before a statement. -/
def instPrev (layout : LinkedLayout) (inst : Inst) : Checked (Option Inst) := do
  return (← layout.nodes.get inst).prev.toOption

/-- The block that a statement is in. -/
def blockOf (layout : LinkedLayout) (inst : Inst) : Checked Block := layout.owners.get inst

/-! ## Orders -/

/-- The statements of a block between two ends. -/
structure Cursor where
  /-- The first statement not yet listed. -/
  front : Option Inst
  /-- The last statement not yet listed. -/
  back : Option Inst
deriving DecidableEq

/-- The whole of a block. -/
def cursor (layout : LinkedLayout) (block : Block) : Checked Cursor := do
  let links ← layout.blocks.get block
  return ⟨links.first.toOption, links.last.toOption⟩

/-- Takes a statement from the front. -/
def next (layout : LinkedLayout) (cursor : Cursor) : Checked (Option Inst × Cursor) :=
  match cursor.front with
  | none => return (none, cursor)
  | some inst =>
    if cursor.front = cursor.back then return (some inst, ⟨none, none⟩)
    else return (some inst, { cursor with front := ← layout.instNext inst })

/-- Takes a statement from the back. -/
def nextBack (layout : LinkedLayout) (cursor : Cursor) : Checked (Option Inst × Cursor) :=
  match cursor.back with
  | none => return (none, cursor)
  | some inst =>
    if cursor.front = cursor.back then return (some inst, ⟨none, none⟩)
    else return (some inst, { cursor with back := ← layout.instPrev inst })

/-- Takes at most `count` statements from one end, until there are none. -/
def takeAll (step : Cursor → Checked (Option Inst × Cursor)) :
    Nat → Cursor → Checked (List Inst)
  | 0, _ => .error .unsettled
  | count + 1, cursor => do
    match ← step cursor with
    | (none, _) => return []
    | (some inst, cursor) => return inst :: (← takeAll step count cursor)

/-- The statements of a block in order.  A statement is listed once, so the
    number of slots bounds the length. -/
def instList (layout : LinkedLayout) (block : Block) : Checked (List Inst) := do
  takeAll layout.next (layout.nodes.slots.size + 2) (← layout.cursor block)

/-- The statements of a block from the last one back. -/
def instListBack (layout : LinkedLayout) (block : Block) : Checked (List Inst) := do
  takeAll layout.nextBack (layout.nodes.slots.size + 2) (← layout.cursor block)

/-- Takes statements from the front and the back by turns, until the front
    has none. -/
def takePairs (layout : LinkedLayout) : Nat → Cursor → Checked (List (Inst × Option Inst))
  | 0, _ => .error .unsettled
  | count + 1, cursor => do
    match ← layout.next cursor with
    | (none, _) => return []
    | (some front, cursor) =>
      let (back, cursor) ← layout.nextBack cursor
      return (front, back) :: (← takePairs layout count cursor)

/-- The statements of a block, taken from both ends by turns.  No two ends
    are met twice, so the number of pairs of slots bounds the length. -/
def bothEnds (layout : LinkedLayout) (block : Block) : Checked (List (Inst × Option Inst)) := do
  let ends := layout.nodes.slots.size + 2
  layout.takePairs (ends * ends) (← layout.cursor block)

/-- The blocks from a block on, at most `count` of them. -/
def blocksFrom (layout : LinkedLayout) : Nat → Option Block → Checked (List Block)
  | _, none => return []
  | 0, some _ => .error .unsettled
  | count + 1, some block => do
    let next ← layout.blockNext block
    return block :: (← layout.blocksFrom count next)

/-- The blocks in order. -/
def blockList (layout : LinkedLayout) : Checked (List Block) :=
  layout.blocksFrom (layout.blocks.slots.size + 1) layout.entry?

/-- The blocks from a block on, at most `count` of them, each with its
    statements in order. -/
def outlineFrom (layout : LinkedLayout) :
    Nat → Option Block → Checked (List (Block × List Inst))
  | _, none => return []
  | 0, some _ => .error .unsettled
  | count + 1, some block => do
    let next ← layout.blockNext block
    let insts ← layout.instList block
    return (block, insts) :: (← layout.outlineFrom count next)

/-- The blocks in order, each with its statements in order. -/
def outline (layout : LinkedLayout) : Checked (List (Block × List Inst)) :=
  layout.outlineFrom (layout.blocks.slots.size + 1) layout.entry?

/-- A layout as printed. -/
def describe (layout : LinkedLayout) : Checked String := do
  return Text.map ((← layout.outline).map fun (block, insts) =>
    (block.describe, Text.list (insts.map Key.describe)))

end LinkedLayout

end DecafBackend
