import DecafBackend.IR.Operator
import DecafBackend.Machine.Register
import DecafBackend.SymbolPool
import DecafBackend.Text.Listing

/-! # Locations and records

    A location is a place that holds a word.  A record is one instruction:
    either a value, which some other record owns through its operands, or a
    statement, which stands in a block.  A call is a value whose result may
    also be discarded, and then it is a statement. -/

namespace DecafBackend

/-- The kind of records. -/
abbrev KeyKind.inst : KeyKind := ⟨"Inst", 32⟩

/-- The key of a record. -/
abbrev Inst := Key .inst

/-- The kind of locations. -/
abbrev KeyKind.loc : KeyKind := ⟨"Loc", 32⟩

/-- The key of a location. -/
abbrev Loc := Key .loc

/-- The kind of basic blocks. -/
abbrev KeyKind.block : KeyKind := ⟨"Block", 32⟩

/-- The key of a basic block. -/
abbrev Block := Key .block

/-- The kind of jump targets. -/
abbrev KeyKind.label : KeyKind := ⟨"Label", 32⟩

/-- The key of a jump target. -/
abbrev Label := Key .label

/-- What a location is. -/
inductive Location
  /-- A field of the program. -/
  | global (name : Symbol)
  /-- A variable or parameter of the method, or an intermediate result. -/
  | localVar (name : Symbol)
  /-- A location made by an optimization. -/
  | temp
  /-- An immediate; truth values are zero and one. -/
  | constant (value : Int64)
  /-- The address of a literal text. -/
  | literal (text : Symbol)
deriving DecidableEq

namespace Location

/-- Whether only the method itself can reach the location, so that a
    register may hold it. -/
def isAllocatable : Location → Bool
  | localVar _ | temp => true
  | _ => false

/-- Whether other methods can reach the location. -/
def isGlobal : Location → Bool
  | global _ => true
  | _ => false

/-- Whether the location can be written. -/
def isWritable : Location → Bool
  | global _ | localVar _ | temp => true
  | _ => false

/-- Whether equal data always is one location: everything but the variables
    and temporaries of the method. -/
def isInterned : Location → Bool
  | localVar _ | temp => false
  | _ => true

/-- A location's data as printed. -/
def describe : Location → String
  | global name => Text.record "Global" [("name", name.describe)]
  | localVar name => Text.record "Local" [("name", name.describe)]
  | temp => "Temp"
  | constant value => s!"Constant({value.toInt})"
  | literal text => s!"Str({text.describe})"

end Location

/-- One instruction. -/
inductive Record
  /-- Reads a location. -/
  | load (src : Loc)
  /-- Reads an incoming argument. -/
  | param (index : Nat)
  /-- Applies an operator to two values. -/
  | binary (op : BinaryOp) (lhs rhs : Inst)
  /-- Applies an operator to a value. -/
  | unary (op : UnaryOp) (operand : Inst)
  /-- Calls a method or an external routine; `saved` lists the registers to
      preserve across the call. -/
  | call (target : Symbol) (args : List Loc) (isExternal : Bool) (saved : List Register)
  /-- Writes a value into a location. -/
  | save (value : Inst) (dest : Loc)
  /-- Reads a location without computing anything from it. -/
  | use (loc : Loc)
  /-- Marks a jump target. -/
  | label (place : Label)
  /-- Goes to a target. -/
  | jump (target : Label)
  /-- Goes to a target when a value is zero, and falls through otherwise. -/
  | branch (cond : Inst) (target : Label)
  /-- Returns from the method. -/
  | ret (value : Option Inst)
  /-- Ends the process. -/
  | exit (code : Int32)
deriving DecidableEq

namespace Record

/-- Whether the record produces a value. -/
def isValue : Record → Bool
  | load _ | param _ | binary _ _ _ | unary _ _ | call _ _ _ _ => true
  | _ => false

/-- Whether the record is a call. -/
def isCall : Record → Bool
  | call _ _ _ _ => true
  | _ => false

/-- Whether control never reaches the next statement. -/
def isTerminator : Record → Bool
  | jump _ | ret _ | exit _ => true
  | _ => false

/-- Whether the record ends its block. -/
def endsBlock : Record → Bool
  | branch _ _ => true
  | record => record.isTerminator

/-- Where the record may transfer control to. -/
def target? : Record → Option Label
  | jump target | branch _ target => some target
  | _ => none

/-- The values that the record owns, in order of evaluation. -/
def operands : Record → List Inst
  | binary _ lhs rhs => [lhs, rhs]
  | unary _ operand => [operand]
  | save value _ => [value]
  | branch cond _ => [cond]
  | ret (some value) => [value]
  | _ => []

/-- The location that the record writes. -/
def dest? : Record → Option Loc
  | save _ dest => some dest
  | _ => none

/-- The locations that the record itself reads, in order. -/
def sources : Record → List Loc
  | load src => [src]
  | use loc => [loc]
  | call _ args _ _ => args
  | _ => []

/-- The record with every location it names replaced. -/
def mapLocs (f : Loc → Loc) : Record → Record
  | load src => load (f src)
  | save value dest => save value (f dest)
  | use loc => use (f loc)
  | call target args isExternal saved => call target (args.map f) isExternal saved
  | record => record

/-- A record as printed. -/
def describe : Record → String
  | load src => Text.record "Load" [("src", src.describe)]
  | param index => Text.record "Param" [("index", toString index)]
  | binary op lhs rhs =>
    Text.record "Binary" [("op", op.describe), ("lhs", lhs.describe), ("rhs", rhs.describe)]
  | unary op operand => Text.record "Unary" [("op", op.describe), ("operand", operand.describe)]
  | call target args isExternal saved =>
    Text.record "Call" [("target", target.describe), ("args", Text.list (args.map Key.describe)),
      ("external", Text.bool isExternal), ("saved", Text.list (saved.map Register.describe))]
  | save value dest => Text.record "Save" [("value", value.describe), ("dest", dest.describe)]
  | use loc => Text.record "Use" [("loc", loc.describe)]
  | label place => s!"Label({place.describe})"
  | jump target => Text.record "Jump" [("target", target.describe)]
  | branch cond target =>
    Text.record "Branch" [("cond", cond.describe), ("target", target.describe)]
  | ret value => Text.record "Return" [("value", Text.optional (value.map Key.describe))]
  | exit code => Text.record "Exit" [("code", toString code.toInt)]

end Record

end DecafBackend
