import DecafBackend.Optimize.Term
import DecafBackend.IR.Body

/-! # Value numbers

    Inside one block, locations and terms are given numbers such that equal
    numbers mean equal values.  Numbers name values, not locations, so a
    write changes only the number of the location that is written, and what
    that location held. -/

namespace DecafBackend

/-- A number for a value. -/
abbrev ValueNumber := Nat

/-- A term over numbered values. -/
inductive NumberedTerm
  /-- An operator applied to a value. -/
  | unary (op : UnaryOp) (operand : ValueNumber)
  /-- An operator applied to two values. -/
  | binary (op : BinaryOp) (lhs rhs : ValueNumber)
deriving DecidableEq

/-- The numbers given out in a block. -/
structure NumberTable where
  /-- The next number to give out. -/
  next : ValueNumber := 0
  /-- The number of the value in each location. -/
  locs : Std.ExtTreeMap Loc ValueNumber := ∅
  /-- The number of each term. -/
  terms : List (NumberedTerm × ValueNumber) := []
  /-- The temporary that holds each numbered value. -/
  temps : Std.ExtTreeMap ValueNumber Loc := ∅

namespace NumberTable

/-- A number that was not used before. -/
def fresh (table : NumberTable) : ValueNumber × NumberTable :=
  (table.next, { table with next := table.next + 1 })

/-- The number of the value in a location. -/
def ofLoc (table : NumberTable) (loc : Loc) : ValueNumber × NumberTable :=
  match table.locs[loc]? with
  | some number => (number, table)
  | none =>
    let (number, table) := table.fresh
    (number, { table with locs := table.locs.insert loc number })

/-- The number of a numbered term. -/
def ofNumbered (table : NumberTable) (term : NumberedTerm) : ValueNumber × NumberTable :=
  match table.terms.lookup term with
  | some number => (number, table)
  | none =>
    let (number, table) := table.fresh
    (number, { table with terms := (term, number) :: table.terms })

/-- The number of a term's value.  The operands of a commutative operator
    are taken in the order of their numbers. -/
def ofTerm (table : NumberTable) : Term → ValueNumber × NumberTable
  | .leaf loc => table.ofLoc loc
  | .unary op operand =>
    let (number, table) := table.ofLoc operand
    table.ofNumbered (.unary op number)
  | .binary op lhs rhs =>
    let (a, table) := table.ofLoc lhs
    let (b, table) := table.ofLoc rhs
    table.ofNumbered (if op.isCommutative ∧ b < a then .binary op b a else .binary op a b)

/-- Records that a location was written with a numbered value. -/
def define (table : NumberTable) (loc : Loc) (number : ValueNumber) : NumberTable :=
  { table with
    temps := table.temps.filter fun _ temp => temp ≠ loc
    locs := table.locs.insert loc number }

/-- Records that a temporary holds a numbered value. -/
def remember (table : NumberTable) (number : ValueNumber) (temp : Loc) : NumberTable :=
  { table with temps := table.temps.insert number temp }

/-- Forgets what fields hold, which a call may write. -/
def forgetGlobals (table : NumberTable) (body : Body) : Checked NumberTable := do
  let globals ← table.locs.keys.filterM body.isGlobal
  let stale ← table.temps.toList.filterM fun (_, temp) => body.isGlobal temp
  return { table with
    locs := globals.foldl (·.erase ·) table.locs
    temps := stale.foldl (fun temps (number, _) => temps.erase number) table.temps }

end NumberTable

end DecafBackend
