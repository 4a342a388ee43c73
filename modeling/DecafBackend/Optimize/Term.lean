import DecafBackend.IR.Record

/-! # Terms

    A term is an expression over locations, as one save computes it.  The
    operands of a commutative operator are kept in ascending order, so that
    a sum and the same sum turned around are one term. -/

namespace DecafBackend

/-- An expression over locations. -/
inductive Term
  /-- The value of a location. -/
  | leaf (loc : Loc)
  /-- An operator applied to a location. -/
  | unary (op : UnaryOp) (operand : Loc)
  /-- An operator applied to two locations. -/
  | binary (op : BinaryOp) (lhs rhs : Loc)
deriving DecidableEq

namespace Term

/-- The canonical term of an operator and two operands. -/
def canonical (op : BinaryOp) (lhs rhs : Loc) : Term :=
  if op.isCommutative ∧ rhs < lhs then binary op rhs lhs else binary op lhs rhs

/-- The locations that a term reads, in order. -/
def operands : Term → List Loc
  | leaf loc | unary _ loc => [loc]
  | binary _ lhs rhs => [lhs, rhs]

/-- Whether a term reads a location. -/
def mentions (term : Term) (loc : Loc) : Bool := term.operands.contains loc

/-- Whether a term is the value of a location. -/
def isLeaf : Term → Bool
  | leaf _ => true
  | _ => false

/-! ## Order -/

/-- The form of a term: locations come first, then one operand, then two. -/
def form : Term → Nat
  | leaf _ => 0
  | unary _ _ => 1
  | binary _ _ _ => 2

/-- The place of a term's operator among those of its form. -/
def operator : Term → Nat
  | leaf _ => 0
  | unary op _ => op.number
  | binary op _ _ => op.number

/-- The first location that a term reads. -/
def first : Term → Loc
  | leaf loc | unary _ loc | binary _ loc _ => loc

/-- The last location that a term reads. -/
def last : Term → Loc
  | leaf loc | unary _ loc | binary _ _ loc => loc

/-- Terms are ordered by their form, then by operator and operands. -/
instance : Ord Term :=
  ⟨compareLex (compareOn form) (compareLex (compareOn operator)
    (compareLex (compareOn first) (compareOn last)))⟩

instance : Std.TransOrd Term :=
  inferInstanceAs (Std.TransCmp (compareLex (compareOn form) (compareLex (compareOn operator)
    (compareLex (compareOn first) (compareOn last)))))

/-- Terms of one form, operator and operands are the same. -/
theorem eq_of_parts (a b : Term) (form_eq : a.form = b.form) (operator_eq : a.operator = b.operator)
    (first_eq : a.first = b.first) (last_eq : a.last = b.last) : a = b := by
  cases a <;> cases b <;> simp_all [form, operator, first, last]
  · exact UnaryOp.number_injective _ _ operator_eq
  · exact BinaryOp.number_injective _ _ operator_eq

instance : Std.LawfulEqOrd Term where
  eq_of_compare {a b} h := by
    have h : compareLex (compareOn form) (compareLex (compareOn operator)
      (compareLex (compareOn first) (compareOn last))) a b = .eq := h
    simp only [compareLex_eq_eq, compareOn] at h
    obtain ⟨form_eq, operator_eq, first_eq, last_eq⟩ := h
    exact eq_of_parts a b (Std.LawfulEqOrd.eq_of_compare form_eq)
      (Std.LawfulEqOrd.eq_of_compare operator_eq) (Std.LawfulEqOrd.eq_of_compare first_eq)
      (Std.LawfulEqOrd.eq_of_compare last_eq)

/-- A term as printed. -/
def describe : Term → String
  | leaf loc => s!"Leaf({loc.describe})"
  | unary op operand => s!"Unary({op.describe}, {operand.describe})"
  | binary op lhs rhs => s!"Binary({op.describe}, {lhs.describe}, {rhs.describe})"

end Term

end DecafBackend
