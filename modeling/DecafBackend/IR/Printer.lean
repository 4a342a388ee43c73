import DecafBackend.IR.Module
import DecafBackend.Text.Quoted

/-! # Printing bodies and modules

    One line per statement, under a line per block, under a line per method.
    A field is written with `@`, a temporary with `%t`, an immediate with
    `$`, a literal text in quotes.  Bindings to registers follow the
    statement whose accesses they bind. -/

namespace DecafBackend

namespace Body

/-- A location as it is written in a statement. -/
def showLoc (body : Body) (symbols : SymbolPool) (loc : Loc) : Checked String := do
  match ← body.location loc with
  | .global name => return "@" ++ (← symbols.text name)
  | .localVar name => symbols.text name
  | .temp => return s!"%t{loc.index}"
  | .constant value => return s!"${value.toInt}"
  | .literal text => return "str" ++ Text.quoted (← symbols.text text)

/-- A call as it is written. -/
def showCall (body : Body) (symbols : SymbolPool) (target : Symbol) (args : List Loc)
    (isExternal : Bool) (saved : List Register) : Checked String := do
  let kind := if isExternal then "callout " else "call "
  let target ← symbols.text target
  let args ← args.mapM (body.showLoc symbols)
  let saving :=
    if saved.isEmpty then "" else " saving " ++ Text.list (saved.map Register.name)
  return kind ++ target ++ "(" ++ Text.commaSeparated args ++ ")" ++ saving

/-- A value as it is written; no chain of owners may be longer than `depth`. -/
def showValue (body : Body) (symbols : SymbolPool) : Nat → Inst → Checked String
  | 0, _ => .error .cyclicRecord
  | depth + 1, inst => do
    match ← body.record inst with
    | .load src => body.showLoc symbols src
    | .param index => return s!"param {index}"
    | .binary op lhs rhs =>
      let lhs ← body.showValue symbols depth lhs
      let rhs ← body.showValue symbols depth rhs
      return op.mnemonic ++ " " ++ lhs ++ ", " ++ rhs
    | .unary op operand => return op.mnemonic ++ " " ++ (← body.showValue symbols depth operand)
    | .call target args isExternal saved => body.showCall symbols target args isExternal saved
    | other => return "<not a value: " ++ other.describe ++ ">"

/-- A statement as it is written. -/
def showStmt (body : Body) (symbols : SymbolPool) (stmt : Inst) : Checked String := do
  let depth := body.records.size + 1
  match ← body.record stmt with
  | .save value dest =>
    return (← body.showLoc symbols dest) ++ " = " ++ (← body.showValue symbols depth value)
  | .use loc => return "use " ++ (← body.showLoc symbols loc)
  | .call target args isExternal saved => body.showCall symbols target args isExternal saved
  | .label place => return s!"L{place.index}:"
  | .jump target => return s!"jmp L{target.index}"
  | .branch cond target =>
    return "bz " ++ (← body.showValue symbols depth cond) ++ s!", L{target.index}"
  | .ret (some value) => return "ret " ++ (← body.showValue symbols depth value)
  | .ret none => return "ret"
  | .exit code => return s!"exit {code.toInt}"
  | other => return "<not a statement: " ++ other.describe ++ ">"

/-- Every access of a statement: its reads, then its write. -/
def accesses (body : Body) (stmt : Inst) : Checked (List Access) := do
  let reads ← body.reads stmt
  return reads ++ ((← body.record stmt).dest?.map (Access.mk stmt)).toList

/-- The bindings of a statement's accesses. -/
def showBindings (body : Body) (symbols : SymbolPool) (stmt : Inst) : Checked String := do
  let parts ← (← body.accesses stmt).filterMapM fun access => do
    match body.bindings.get? access with
    | none => return none
    | some register =>
      return some ((← body.showLoc symbols access.loc) ++ " -> " ++ register.name)
  return if parts.isEmpty then "" else "    ; " ++ Text.commaSeparated parts

/-- A block with its statements. -/
def showBlock (body : Body) (symbols : SymbolPool) (block : Block) : Checked String := do
  let lines ← (body.stmtsOf block).mapM fun stmt => do
    return "    " ++ (← body.showStmt symbols stmt) ++ (← body.showBindings symbols stmt) ++ "\n"
  return s!"  block{block.index}:\n" ++ String.join lines

/-- A method with its blocks. -/
def render (body : Body) (symbols : SymbolPool) : Checked String := do
  let name ← symbols.text body.name
  let params ← body.params.mapM (body.showLoc symbols)
  let blocks ← body.blockKeys.mapM (body.showBlock symbols)
  return "method " ++ name ++ "(" ++ Text.commaSeparated params ++ "):\n" ++ String.join blocks

end Body

namespace Module

/-- A module: its fields, then its methods, each after an empty line. -/
def render (module : Module) : Checked String := do
  let globals ← module.globals.mapM fun name => do
    return "global @" ++ (← module.symbols.text name) ++ "\n"
  let methods ← module.methods.toList.mapM fun body => do
    return "\n" ++ (← body.render module.symbols)
  return String.join globals ++ String.join methods

end Module

end DecafBackend
