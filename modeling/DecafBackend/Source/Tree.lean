import DecafBackend.IR.Operator

/-! # Checked syntax trees

    The programs to compile, as a front end hands them over: every name is
    declared and every expression is well-typed.  A name that no enclosing
    block and no parameter declares is a field of the program.

    * `Program`, `Method`, `Block`, `Stmt`, `Expr` — the tree
    * `Expr.hasCall` — whether evaluating an expression may call something -/

namespace DecafBackend.Source

/-- An operator between two expressions. -/
inductive Operator
  /-- An operator that evaluates both operands. -/
  | strict (op : BinaryOp)
  /-- Conjunction: the right operand decides only if the left one is true. -/
  | and
  /-- Disjunction: the right operand decides only if the left one is false. -/
  | or
deriving DecidableEq

mutual

/-- An expression. -/
inductive Expr
  /-- An integer. -/
  | int (value : Int64)
  /-- A truth value. -/
  | bool (value : Bool)
  /-- A variable or field. -/
  | var (name : String)
  /-- The result of a call. -/
  | call (call : Call)
  /-- An operator with two operands. -/
  | binary (op : Operator) (lhs rhs : Expr)
  /-- An operator with one operand. -/
  | unary (op : UnaryOp) (operand : Expr)

/-- A call of a method of the program or, as a callout, of an external
    routine. -/
inductive Call
  /-- The callee, its arguments, and whether it is external. -/
  | mk (name : String) (args : List Arg) (isCallout : Bool)

/-- An argument of a call. -/
inductive Arg
  /-- The value of an expression. -/
  | expr (value : Expr)
  /-- A literal text, for callouts only. -/
  | text (value : String)

end

/-- Whether evaluating an expression may call something. -/
def Expr.hasCall : Expr → Bool
  | .call _ => true
  | .binary _ lhs rhs => lhs.hasCall || rhs.hasCall
  | .unary _ operand => operand.hasCall
  | _ => false

/-- Whether evaluating an argument may call something. -/
def Arg.hasCall : Arg → Bool
  | .expr value => value.hasCall
  | .text _ => false

/-- How an assignment combines the old value with the new one. -/
inductive AssignOp
  /-- The new value replaces the old one. -/
  | assign
  /-- The new value is added. -/
  | addAssign
  /-- The new value is subtracted. -/
  | subAssign
deriving DecidableEq

mutual

/-- A statement. -/
inductive Stmt
  /-- An assignment. -/
  | assign (target : String) (op : AssignOp) (value : Expr)
  /-- A call whose result is discarded. -/
  | call (call : Call)
  /-- A conditional. -/
  | cond (cond : Expr) (thenBlock : Block) (elseBlock : Option Block)
  /-- A loop that runs while its condition is not zero. -/
  | whileLoop (cond : Expr) (body : Block)
  /-- A loop that counts `var` up from `start` while it is below `bound`,
      which is evaluated once. -/
  | forLoop (var : String) (start bound : Expr) (body : Block)
  /-- A return. -/
  | ret (value : Option Expr)
  /-- Leaves the innermost loop. -/
  | breakLoop
  /-- Goes on with the next iteration of the innermost loop. -/
  | continueLoop
  /-- A nested block. -/
  | block (block : Block)

/-- A block: its own variables, then statements. -/
inductive Block
  /-- The variables and the statements. -/
  | mk (locals : List String) (stmts : List Stmt)

end

/-- A method. -/
structure Method where
  /-- The name. -/
  name : String
  /-- The parameters in order. -/
  params : List String
  /-- Whether the method is declared to return a value. -/
  returnsValue : Bool
  /-- The body. -/
  body : Block

/-- A program. -/
structure Program where
  /-- The fields in order of declaration. -/
  fields : List String
  /-- The methods in order of declaration. -/
  methods : List Method

end DecafBackend.Source
