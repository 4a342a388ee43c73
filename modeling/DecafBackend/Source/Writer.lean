import DecafBackend.Json.Value
import DecafBackend.Source.Tree

/-! # Writing trees as JSON

    Records are objects with all their fields; alternatives are objects with
    one member, named for the alternative, or just that name where there is
    nothing more to say. -/

namespace DecafBackend.Source

/-- The word for an operator. -/
def Operator.word : Operator → String
  | .strict op => op.mnemonic
  | .and => "and"
  | .or => "or"

/-- The word for an assignment. -/
def AssignOp.word : AssignOp → String
  | .assign => "assign"
  | .addAssign => "add_assign"
  | .subAssign => "sub_assign"

mutual

/-- An expression as JSON. -/
def Expr.toJson : Expr → Json
  | .int value => .object [("int", .int value.toInt)]
  | .bool value => .object [("bool", .bool value)]
  | .var name => .object [("var", .string name)]
  | .call call => .object [("call", call.toJson)]
  | .binary op lhs rhs =>
    .object [("binary", .object [("op", .string op.word), ("lhs", lhs.toJson),
      ("rhs", rhs.toJson)])]
  | .unary op operand =>
    .object [("unary", .object [("op", .string op.mnemonic), ("operand", operand.toJson)])]

/-- A call as JSON. -/
def Call.toJson : Call → Json
  | .mk name args isCallout =>
    .object [("name", .string name), ("args", .array (argsToJson args)),
      ("callout", .bool isCallout)]

/-- An argument as JSON. -/
def Arg.toJson : Arg → Json
  | .expr value => .object [("expr", value.toJson)]
  | .text value => .object [("str", .string value)]

/-- Arguments as JSON. -/
def argsToJson : List Arg → List Json
  | [] => []
  | arg :: rest => arg.toJson :: argsToJson rest

end

/-- Names as JSON. -/
def namesToJson (names : List String) : Json := .array (names.map Json.string)

mutual

/-- A statement as JSON. -/
def Stmt.toJson : Stmt → Json
  | .assign target op value =>
    .object [("assign", .object [("target", .string target), ("op", .string op.word),
      ("value", value.toJson)])]
  | .call call => .object [("call", call.toJson)]
  | .cond cond thenBlock none =>
    .object [("if", .object [("cond", cond.toJson), ("then", thenBlock.toJson),
      ("otherwise", .null)])]
  | .cond cond thenBlock (some elseBlock) =>
    .object [("if", .object [("cond", cond.toJson), ("then", thenBlock.toJson),
      ("otherwise", elseBlock.toJson)])]
  | .whileLoop cond body =>
    .object [("while", .object [("cond", cond.toJson), ("body", body.toJson)])]
  | .forLoop var start bound body =>
    .object [("for", .object [("var", .string var), ("start", start.toJson),
      ("end", bound.toJson), ("body", body.toJson)])]
  | .ret none => .object [("return", .null)]
  | .ret (some value) => .object [("return", value.toJson)]
  | .breakLoop => .string "break"
  | .continueLoop => .string "continue"
  | .block block => .object [("block", block.toJson)]

/-- A block as JSON. -/
def Block.toJson : Block → Json
  | .mk locals stmts =>
    .object [("locals", namesToJson locals), ("stmts", .array (stmtsToJson stmts))]

/-- Statements as JSON. -/
def stmtsToJson : List Stmt → List Json
  | [] => []
  | stmt :: rest => stmt.toJson :: stmtsToJson rest

end

/-- A method as JSON. -/
def Method.toJson (method : Method) : Json :=
  .object [("name", .string method.name), ("params", namesToJson method.params),
    ("returns_value", .bool method.returnsValue), ("body", method.body.toJson)]

/-- A program as JSON. -/
def Program.toJson (program : Program) : Json :=
  .object [("fields", namesToJson program.fields),
    ("methods", .array (program.methods.map Method.toJson))]

end DecafBackend.Source
