/-! # Operators

    The operators of arithmetic records.  Comparisons give zero or one. -/

namespace DecafBackend

/-- An operator with two operands. -/
inductive BinaryOp
  | add | sub | mul | div | mod | eq | ne | lt | le | gt | ge
deriving DecidableEq

namespace BinaryOp

/-- Every operator, in order. -/
def all : List BinaryOp := [add, sub, mul, div, mod, eq, ne, lt, le, gt, ge]

/-- The position of an operator among all operators. -/
def number : BinaryOp → Nat
  | add => 0 | sub => 1 | mul => 2 | div => 3 | mod => 4 | eq => 5
  | ne => 6 | lt => 7 | le => 8 | gt => 9 | ge => 10

/-- Operators with one number are the same. -/
theorem number_injective (a b : BinaryOp) (h : a.number = b.number) : a = b := by
  cases a <;> cases b <;> first | rfl | cases h

/-- Whether the order of the operands does not matter. -/
def isCommutative : BinaryOp → Bool
  | add | mul | eq | ne => true
  | _ => false

/-- Whether the result is a truth value. -/
def isComparison : BinaryOp → Bool
  | eq | ne | lt | le | gt | ge => true
  | _ => false

/-- The word for an operator in programs. -/
def mnemonic : BinaryOp → String
  | add => "add" | sub => "sub" | mul => "mul" | div => "div" | mod => "mod" | eq => "eq"
  | ne => "ne" | lt => "lt" | le => "le" | gt => "gt" | ge => "ge"

/-- The word for an operator in listings of records. -/
def describe : BinaryOp → String
  | add => "Add" | sub => "Sub" | mul => "Mul" | div => "Div" | mod => "Mod" | eq => "Eq"
  | ne => "Ne" | lt => "Lt" | le => "Le" | gt => "Gt" | ge => "Ge"

/-- The operator of a mnemonic. -/
def ofMnemonic? (word : String) : Option BinaryOp := all.find? fun op => op.mnemonic == word

end BinaryOp

/-- An operator with one operand. -/
inductive UnaryOp
  /-- Negation in two's complement. -/
  | neg
  /-- Logical negation: zero becomes one, anything else zero. -/
  | not
deriving DecidableEq

namespace UnaryOp

/-- Every operator, in order. -/
def all : List UnaryOp := [neg, not]

/-- The position of an operator among all operators. -/
def number : UnaryOp → Nat
  | neg => 0
  | not => 1

/-- Operators with one number are the same. -/
theorem number_injective (a b : UnaryOp) (h : a.number = b.number) : a = b := by
  cases a <;> cases b <;> first | rfl | cases h

/-- The word for an operator in programs. -/
def mnemonic : UnaryOp → String
  | neg => "neg"
  | not => "not"

/-- The word for an operator in listings of records. -/
def describe : UnaryOp → String
  | neg => "Neg"
  | not => "Not"

/-- The operator of a mnemonic. -/
def ofMnemonic? (word : String) : Option UnaryOp := all.find? fun op => op.mnemonic == word

end UnaryOp

end DecafBackend
