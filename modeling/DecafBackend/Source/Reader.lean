import DecafBackend.Source.Writer

/-! # Reading trees from JSON

    A record is an object, whose further members are ignored, or an array of
    its leading fields.  An alternative is an object with one member.  Fields
    that have a default may be left out.  Values are never converted: an
    integer must be written as one and lie in the range of 64 bits.

    In a positional reading the fields of an alternative may be given as an
    array too.  The readers of nested parts take a bound on the depth of the
    value; the depth of the value itself is always enough. -/

namespace DecafBackend.Source

/-- The field of a record that must be given. -/
def required {α : Type} (read : Json → Option α) : Option Json → Option α
  | some value => read value
  | none => none

/-- The field of a record that may be left out. -/
def defaulted {α : Type} (default : α) (read : Json → Option α) : Option Json → Option α
  | some value => read value
  | none => some default

/-- The fields of an alternative, by name or, in a positional reading, also
    by position. -/
def payloadFields (positional : Bool) (names : List String) (payload : Json) :
    Option (List (Option Json)) :=
  if positional then payload.record? names else payload.members? names

/-- A list of names. -/
def readNames : Json → Option (List String) := Json.list? Json.string?

/-- The operator of a word. -/
def Operator.ofWord? (word : String) : Option Operator :=
  if word = "and" then some .and
  else if word = "or" then some .or
  else (BinaryOp.ofMnemonic? word).map .strict

/-- The assignment of a word. -/
def AssignOp.ofWord? (word : String) : Option AssignOp :=
  if word = "assign" then some .assign
  else if word = "add_assign" then some .addAssign
  else if word = "sub_assign" then some .subAssign
  else none

mutual

/-- Reads an expression. -/
def readExpr (positional : Bool) : Nat → Json → Option Expr
  | 0, _ => none
  | depth + 1, json => do
    let (tag, payload) ← json.variant?
    let payload ← payload
    match tag with
    | "int" => return .int (← payload.int64?)
    | "bool" => return .bool (← payload.bool?)
    | "var" => return .var (← payload.string?)
    | "call" => return .call (← readCall positional depth payload)
    | "binary" =>
      match ← payloadFields positional ["op", "lhs", "rhs"] payload with
      | [op, lhs, rhs] =>
        return .binary (← (required Json.tag? op).bind Operator.ofWord?)
          (← required (readExpr positional depth) lhs)
          (← required (readExpr positional depth) rhs)
      | _ => none
    | "unary" =>
      match ← payloadFields positional ["op", "operand"] payload with
      | [op, operand] =>
        return .unary (← (required Json.tag? op).bind UnaryOp.ofMnemonic?)
          (← required (readExpr positional depth) operand)
      | _ => none
    | _ => none

/-- Reads a call. -/
def readCall (positional : Bool) : Nat → Json → Option Call
  | 0, _ => none
  | depth + 1, json => do
    match ← json.record? ["name", "args", "callout"] with
    | [name, args, callout] =>
      return .mk (← required Json.string? name)
        (← defaulted [] (Json.list? (readArg positional depth)) args)
        (← defaulted false Json.bool? callout)
    | _ => none

/-- Reads an argument. -/
def readArg (positional : Bool) : Nat → Json → Option Arg
  | 0, _ => none
  | depth + 1, json => do
    let (tag, payload) ← json.variant?
    let payload ← payload
    match tag with
    | "expr" => return .expr (← readExpr positional depth payload)
    | "str" => return .text (← payload.string?)
    | _ => none

end

mutual

/-- Reads a statement. -/
def readStmt (positional : Bool) : Nat → Json → Option Stmt
  | 0, _ => none
  | depth + 1, json => do
    match ← json.variant? with
    | ("break", none) | ("break", some .null) => return .breakLoop
    | ("continue", none) | ("continue", some .null) => return .continueLoop
    | (_, none) => none
    | (tag, some payload) =>
      match tag with
      | "assign" =>
        match ← payloadFields positional ["target", "op", "value"] payload with
        | [target, op, value] =>
          return .assign (← required Json.string? target)
            (← (required Json.tag? op).bind AssignOp.ofWord?)
            (← required (readExpr positional depth) value)
        | _ => none
      | "call" => return .call (← readCall positional depth payload)
      | "if" =>
        match ← payloadFields positional ["cond", "then", "otherwise"] payload with
        | [cond, thenBlock, elseBlock] =>
          return .cond (← required (readExpr positional depth) cond)
            (← required (readBlock positional depth) thenBlock)
            (← defaulted none (Json.nullable? (readBlock positional depth)) elseBlock)
        | _ => none
      | "while" =>
        match ← payloadFields positional ["cond", "body"] payload with
        | [cond, body] =>
          return .whileLoop (← required (readExpr positional depth) cond)
            (← required (readBlock positional depth) body)
        | _ => none
      | "for" =>
        match ← payloadFields positional ["var", "start", "end", "body"] payload with
        | [var, start, bound, body] =>
          return .forLoop (← required Json.string? var)
            (← required (readExpr positional depth) start)
            (← required (readExpr positional depth) bound)
            (← required (readBlock positional depth) body)
        | _ => none
      | "return" => return .ret (← payload.nullable? (readExpr positional depth))
      | "block" => return .block (← readBlock positional depth payload)
      | _ => none

/-- Reads a block. -/
def readBlock (positional : Bool) : Nat → Json → Option Block
  | 0, _ => none
  | depth + 1, json => do
    match ← json.record? ["locals", "stmts"] with
    | [locals, stmts] =>
      return .mk (← defaulted [] readNames locals)
        (← defaulted [] (Json.list? (readStmt positional depth)) stmts)
    | _ => none

end

/-- Reads a method. -/
def Method.ofJson? (positional : Bool) (json : Json) : Option Method := do
  match ← json.record? ["name", "params", "returns_value", "body"] with
  | [name, params, returnsValue, body] =>
    return { name := ← required Json.string? name
             params := ← defaulted [] readNames params
             returnsValue := ← defaulted false Json.bool? returnsValue
             body := ← required (readBlock positional json.depth) body }
  | _ => none

/-- Reads a program. -/
def Program.ofJson? (positional : Bool) (json : Json) : Option Program := do
  match ← json.record? ["fields", "methods"] with
  | [fields, methods] =>
    return { fields := ← defaulted [] readNames fields
             methods := ← required (Json.list? (Method.ofJson? positional)) methods }
  | _ => none

/-- Reads an expression on its own. -/
def Expr.ofJson? (positional : Bool) (json : Json) : Option Expr :=
  readExpr positional json.depth json

end DecafBackend.Source
