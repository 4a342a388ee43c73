import DecafBackend.IR.Body

/-! # Building bodies

    A builder appends statements to a body and forms its blocks: a block
    starts at every label and after every statement that can leave its
    block.  Values are made first and attached to the statement that
    consumes them.

    Operations that cannot fail are total; `saveValue`, `placeCall` and
    `placeKnownLabel` test the keys they are given. -/

namespace DecafBackend

/-- A body under construction. -/
structure Builder where
  /-- What has been built so far. -/
  body : Body
  /-- The block that takes the next statement; without one, the next
      statement starts a block. -/
  current : Option Block := none

namespace Builder

/-- Adds a record without placing it. -/
def create (builder : Builder) (record : Record) : Inst × Builder :=
  let (inst, body) := builder.body.create record
  (inst, { builder with body })

/-- Appends a record that exists and is not placed. -/
def place (builder : Builder) (inst : Inst) (endsBlock : Bool) : Builder :=
  let (block, body) := match builder.current with
    | some block => (block, builder.body)
    | none => builder.body.newBlock none
  { body := body.push inst block, current := if endsBlock then none else some block }

/-- Makes a statement and appends it. -/
def append (builder : Builder) (record : Record) : Inst × Builder :=
  let (inst, builder) := builder.create record
  (inst, builder.place inst record.endsBlock)

/-! ## Locations and labels -/

/-- A fresh variable. -/
def localVar (builder : Builder) (name : Symbol) : Loc × Builder :=
  let (loc, body) := builder.body.newLocation (.localVar name)
  (loc, { builder with body })

/-- The location of an interned datum. -/
def intern (builder : Builder) (location : Location) : Loc × Builder :=
  let (loc, body) := builder.body.intern location
  (loc, { builder with body })

/-- The location of a field. -/
def global (builder : Builder) (name : Symbol) : Loc × Builder := builder.intern (.global name)

/-- The location of an immediate. -/
def constant (builder : Builder) (value : Int64) : Loc × Builder :=
  builder.intern (.constant value)

/-- The location of a literal text. -/
def literal (builder : Builder) (text : Symbol) : Loc × Builder := builder.intern (.literal text)

/-- A label that can be jumped to before it is placed. -/
def newLabel (builder : Builder) : Label × Builder :=
  let (label, body) := builder.body.newLabel
  (label, { builder with body })

/-! ## Values -/

/-- A value that reads a location. -/
def load (builder : Builder) (src : Loc) : Inst × Builder := builder.create (.load src)

/-- A value that applies an operator to two locations. -/
def binary (builder : Builder) (op : BinaryOp) (lhs rhs : Loc) : Inst × Builder :=
  let (lhs, builder) := builder.load lhs
  let (rhs, builder) := builder.load rhs
  builder.create (.binary op lhs rhs)

/-- A value that applies an operator to a location. -/
def unary (builder : Builder) (op : UnaryOp) (operand : Loc) : Inst × Builder :=
  let (operand, builder) := builder.load operand
  builder.create (.unary op operand)

/-- A call whose result is not attached yet. -/
def call (builder : Builder) (target : Symbol) (args : List Loc) (isExternal : Bool) :
    Inst × Builder :=
  builder.create (.call target args isExternal [])

/-! ## Statements -/

/-- Appends the store of a value. -/
def save (builder : Builder) (value : Inst) (dest : Loc) : Inst × Builder :=
  builder.append (.save value dest)

/-- Appends the store of a record, which must be a value. -/
def saveValue (builder : Builder) (value : Inst) (dest : Loc) : Checked (Inst × Builder) := do
  if (← builder.body.record value).isValue then return builder.save value dest
  else throw .notAValue

/-- Appends the copy of one location to another. -/
def copy (builder : Builder) (src dest : Loc) : Inst × Builder :=
  let (value, builder) := builder.load src
  builder.save value dest

/-- Declares the next parameter: a fresh variable that the incoming argument
    is stored into. -/
def param (builder : Builder) (name : Symbol) : Loc × Builder :=
  let (loc, builder) := builder.localVar name
  let (value, builder) := builder.create (.param builder.body.params.length)
  let builder := { builder with
    body := { builder.body with params := builder.body.params ++ [loc] } }
  (loc, (builder.save value loc).2)

/-- Appends a call that was made with `call`, discarding its result. -/
def callStmt (builder : Builder) (call : Inst) : Builder := builder.place call false

/-- Appends a record that must be a call and must not be placed. -/
def placeCall (builder : Builder) (call : Inst) : Checked (Inst × Builder) := do
  if !(← builder.body.record call).isCall then throw .notACall
  else if builder.body.isPlaced call then throw .statementPlacedTwice
  else return (call, builder.callStmt call)

/-- Appends a bare read. -/
def use (builder : Builder) (loc : Loc) : Inst × Builder := builder.append (.use loc)

/-- The block that a label can join: the current one, if it is empty and has
    no label yet. -/
def openBlock? (builder : Builder) : Option Block := do
  let block ← builder.current
  let basic ← builder.body.blocks[block.index]?
  if basic.stmts.isEmpty ∧ basic.label.isNone then some block else none

/-- Places a label here, in a new block unless it can join the current one. -/
def label (builder : Builder) (label : Label) : Inst × Builder :=
  match builder.openBlock? with
  | some block => { builder with body := builder.body.placeLabel label block }.append (.label label)
  | none =>
    let (block, body) := builder.body.newBlock (some label)
    { body, current := some block : Builder }.append (.label label)

/-- Places a label that must exist. -/
def placeKnownLabel (builder : Builder) (label : Label) : Checked (Inst × Builder) :=
  if label.isReserved then .error .reservedKey
  else if builder.body.labels.size ≤ label.index then .error .outOfBounds
  else .ok (builder.label label)

/-- Appends a jump. -/
def jump (builder : Builder) (target : Label) : Inst × Builder := builder.append (.jump target)

/-- Appends a jump that is taken when a location holds zero. -/
def branchIfZero (builder : Builder) (cond : Loc) (target : Label) : Inst × Builder :=
  let (cond, builder) := builder.load cond
  builder.append (.branch cond target)

/-- Appends a return of the value in a location, or of none. -/
def ret (builder : Builder) (value : Option Loc) : Inst × Builder :=
  match value with
  | none => builder.append (.ret none)
  | some loc =>
    let (value, builder) := builder.load loc
    builder.append (.ret (some value))

/-- Appends the end of the process. -/
def exit (builder : Builder) (code : Int32) : Inst × Builder := builder.append (.exit code)

/-- Whether the last statement never falls through. -/
def isTerminated (builder : Builder) : Bool :=
  builder.current.isNone &&
    match builder.body.lastStmt?.bind fun inst => builder.body.records[inst.index]? with
    | some record => record.isTerminator
    | none => false

/-- The finished body, which has at least the entry block. -/
def finish (builder : Builder) : Body :=
  if builder.body.blocks.isEmpty then (builder.body.newBlock none).2 else builder.body

end Builder

end DecafBackend
