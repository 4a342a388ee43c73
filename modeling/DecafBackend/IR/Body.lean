import DecafBackend.IR.Bindings

/-! # Method bodies

    A body holds the records of a method, the locations they name, and the
    basic blocks that put its statements in order.  Blocks stand in the
    order in which they were made: the first one is the entry, and control
    that leaves the end of a block goes on with the next.

    * `Body` — the parts of a method
    * `record`, `location`, `labelBlock` — checked look-ups
    * `valueTree`, `reads` — what a statement owns and reads
    * `appendTo`, `insertBefore`, `insertAfter`, `replace`, `remove` —
      edits of the statement order, which refuse to place a statement twice -/

namespace DecafBackend

/-- A straight-line run of statements. -/
structure BasicBlock where
  /-- The label placed at the start of the block. -/
  label : Option Label := none
  /-- The statements in order. -/
  stmts : List Inst := []
deriving DecidableEq

/-- The body of one method. -/
structure Body where
  /-- The name of the method. -/
  name : Symbol
  /-- The variables that incoming arguments are stored into, in order. -/
  params : List Loc := []
  /-- Every record ever made, at the index of its key. -/
  records : Array Record := #[]
  /-- Every location ever made, at the index of its key. -/
  locations : Array Location := #[]
  /-- The block at which each label was placed, if it was. -/
  labels : Array (Option Block) := #[]
  /-- The blocks, each at the index of its key. -/
  blocks : Array BasicBlock := #[]
  /-- The registers that allocation gave to accesses. -/
  bindings : Bindings := {}

namespace Body

/-! ## Look-ups -/

/-- The record that a key must name. -/
def record (body : Body) (inst : Inst) : Checked Record :=
  match body.records[inst.index]? with
  | some record => .ok record
  | none => .error .outOfBounds

/-- The location that a key must name. -/
def location (body : Body) (loc : Loc) : Checked Location :=
  match body.locations[loc.index]? with
  | some location => .ok location
  | none => .error .outOfBounds

/-- The block at which a label that must exist was placed. -/
def labelBlock (body : Body) (label : Label) : Checked (Option Block) :=
  match body.labels[label.index]? with
  | some block => .ok block
  | none => .error .outOfBounds

/-- The keys of the blocks, in order. -/
def blockKeys (body : Body) : List Block := (List.range body.blocks.size).map Key.mk

/-- The statements of a block. -/
def stmtsOf (body : Body) (block : Block) : List Inst :=
  match body.blocks[block.index]? with
  | some basic => basic.stmts
  | none => []

/-- Every statement, in order. -/
def stmts (body : Body) : List Inst := body.blocks.toList.flatMap BasicBlock.stmts

/-- Whether a record stands in some block. -/
def isPlaced (body : Body) (inst : Inst) : Bool :=
  body.blocks.any fun basic => basic.stmts.contains inst

/-- The entry block, if there are blocks. -/
def entry? (body : Body) : Option Block := if body.blocks.isEmpty then none else some ⟨0⟩

/-- The block after a block. -/
def next? (body : Body) (block : Block) : Option Block :=
  if block.index + 1 < body.blocks.size then some ⟨block.index + 1⟩ else none

/-- The last statement of the last block. -/
def lastStmt? (body : Body) : Option Inst := do (← body.blocks.back?).stmts.getLast?

/-! ## Locations and labels -/

/-- Adds a location. -/
def newLocation (body : Body) (location : Location) : Loc × Body :=
  (⟨body.locations.size⟩, { body with locations := body.locations.push location })

/-- The location with some data, which is added if it is new.  Variables and
    temporaries are never looked up. -/
def intern (body : Body) (location : Location) : Loc × Body :=
  match body.locations.findIdx? (· == location) with
  | some index => (⟨index⟩, body)
  | none => body.newLocation location

/-- Adds a label that is not placed yet. -/
def newLabel (body : Body) : Label × Body :=
  (⟨body.labels.size⟩, { body with labels := body.labels.push none })

/-! ## Records -/

/-- Adds a record without placing it. -/
def create (body : Body) (record : Record) : Inst × Body :=
  (⟨body.records.size⟩, { body with records := body.records.push record })

/-- Replaces a record that exists. -/
def setRecord (body : Body) (inst : Inst) (record : Record) : Body :=
  { body with records := body.records.setIfInBounds inst.index record }

/-- The records that a record owns, directly or not, and then the record
    itself; operands come first.  No chain of owners may be longer than
    `depth`. -/
def treeWithin (body : Body) : Nat → Inst → Checked (List Inst)
  | 0, _ => .error .cyclicRecord
  | depth + 1, inst => do
    let record ← body.record inst
    let parts ← record.operands.mapM (body.treeWithin depth)
    return parts.flatten ++ [inst]

/-- The records that a statement owns, and then the statement; operands come
    first. -/
def valueTree (body : Body) (stmt : Inst) : Checked (List Inst) :=
  body.treeWithin (body.records.size + 1) stmt

/-- The accesses by which a statement reads locations, in the order of their
    evaluation. -/
def reads (body : Body) (stmt : Inst) : Checked (List Access) := do
  let parts ← (← body.valueTree stmt).mapM fun inst => do
    return (← body.record inst).sources.map (Access.mk inst)
  return parts.flatten

/-- The first call among the records that a statement owns. -/
def callIn? (body : Body) (stmt : Inst) : Checked (Option Inst) := do
  (← body.valueTree stmt).findM? fun inst => return (← body.record inst).isCall

/-- Whether a statement calls something. -/
def hasCall (body : Body) (stmt : Inst) : Checked Bool := do
  return (← body.callIn? stmt).isSome

/-- Whether a location can be held in a register. -/
def isTracked (body : Body) (loc : Loc) : Checked Bool := do
  return (← body.location loc).isAllocatable

/-- Whether other methods can reach a location. -/
def isGlobal (body : Body) (loc : Loc) : Checked Bool := do
  return (← body.location loc).isGlobal

/-- Whether the value of a location can change. -/
def isVariable (body : Body) (loc : Loc) : Checked Bool := do
  return (← body.location loc).isWritable

/-! ## Blocks and the order of statements -/

/-- Adds a block at the end. -/
def newBlock (body : Body) (label : Option Label) : Block × Body :=
  let block : Block := ⟨body.blocks.size⟩
  let labels := match label with
    | some label => body.labels.setIfInBounds label.index (some block)
    | none => body.labels
  (block, { body with blocks := body.blocks.push { label }, labels })

/-- Places a label at a block. -/
def placeLabel (body : Body) (label : Label) (block : Block) : Body :=
  { body with
    blocks := body.blocks.modify block.index fun basic => { basic with label := some label }
    labels := body.labels.setIfInBounds label.index (some block) }

/-- Puts a statement at the end of a block. -/
def push (body : Body) (inst : Inst) (block : Block) : Body :=
  { body with
    blocks := body.blocks.modify block.index fun basic =>
      { basic with stmts := basic.stmts ++ [inst] } }

/-- Changes the statements of every block. -/
def mapStmts (body : Body) (f : List Inst → List Inst) : Body :=
  { body with blocks := body.blocks.map fun basic => { basic with stmts := f basic.stmts } }

/-- A list with `new` in front of every `anchor`. -/
def putBefore (new anchor : Inst) : List Inst → List Inst :=
  List.flatMap fun inst => if inst = anchor then [new, inst] else [inst]

/-- A list with `new` behind every `anchor`. -/
def putAfter (new anchor : Inst) : List Inst → List Inst :=
  List.flatMap fun inst => if inst = anchor then [inst, new] else [inst]

/-- Tests whether a record may be placed next to a statement. -/
def checkPlacement (body : Body) (inst anchor : Inst) : Checked Unit :=
  if body.isPlaced inst then .error .statementPlacedTwice
  else if !body.isPlaced anchor then .error (.absentEntry anchor.describe)
  else if inst.isReserved then .error .reservedKey
  else .ok ()

/-- Places a statement at the end of a block. -/
def appendTo (body : Body) (inst : Inst) (block : Block) : Checked Body :=
  if body.isPlaced inst then .error .statementPlacedTwice
  else if body.blocks.size ≤ block.index then .error (.absentEntry block.describe)
  else if inst.isReserved then .error .reservedKey
  else .ok (body.push inst block)

/-- Places a statement directly before another one. -/
def insertBefore (body : Body) (inst anchor : Inst) : Checked Body := do
  body.checkPlacement inst anchor
  return body.mapStmts (putBefore inst anchor)

/-- Places a statement directly after another one. -/
def insertAfter (body : Body) (inst anchor : Inst) : Checked Body := do
  body.checkPlacement inst anchor
  return body.mapStmts (putAfter inst anchor)

/-- Takes a statement out of the order. -/
def remove (body : Body) (inst : Inst) : Checked Body :=
  if body.isPlaced inst then .ok (body.mapStmts fun stmts => stmts.filter (· ≠ inst))
  else .error (.absentEntry inst.describe)

/-- Puts a statement where another one stands, and takes that one out. -/
def replace (body : Body) (old new : Inst) : Checked Body := do
  (← body.insertAfter new old).remove old

end Body

end DecafBackend
