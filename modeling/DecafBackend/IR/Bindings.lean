import DecafBackend.IR.Record

/-! # Accesses and register bindings

    An access is a location together with the record that reads or writes
    it.  Register allocation binds accesses one by one: a load, use or call
    for reads, the save for writes.  An access without a binding goes to the
    stack slot of its location. -/

namespace DecafBackend

/-- A location as one record reads or writes it. -/
structure Access where
  /-- The record that performs the access. -/
  inst : Inst
  /-- The location accessed. -/
  loc : Loc
deriving DecidableEq

namespace Access

instance : Ord Access := ⟨compareLex (compareOn Access.inst) (compareOn Access.loc)⟩

instance : Std.TransOrd Access :=
  inferInstanceAs (Std.TransCmp (compareLex (compareOn Access.inst) (compareOn Access.loc)))

instance : Std.LawfulEqOrd Access where
  compare_self := Std.ReflCmp.compare_self
  eq_of_compare {a b} h := by
    have h : (compare a.inst b.inst).then (compare a.loc b.loc) = .eq := h
    rw [Ordering.then_eq_eq] at h
    cases a
    cases b
    exact congr (congrArg _ (Std.LawfulEqOrd.compare_eq_iff_eq.mp h.1))
      (Std.LawfulEqOrd.compare_eq_iff_eq.mp h.2)

end Access

/-- The registers that allocation gave to the accesses of a method. -/
structure Bindings where
  /-- The register of each bound access. -/
  registers : Std.ExtTreeMap Access Register := ∅
  /-- The registers ever bound that the method has to preserve. -/
  calleeSaved : Std.ExtTreeSet Register := ∅

namespace Bindings

/-- Binds an access to a register. -/
def bind (bindings : Bindings) (access : Access) (register : Register) : Bindings where
  registers := bindings.registers.insert access register
  calleeSaved :=
    if register.isCalleeSaved then bindings.calleeSaved.insert register
    else bindings.calleeSaved

/-- The register of an access, if it is bound. -/
def get? (bindings : Bindings) (access : Access) : Option Register :=
  bindings.registers[access]?

/-- The bound accesses with their registers, in order. -/
def toList (bindings : Bindings) : List (Access × Register) := bindings.registers.toList

end Bindings

end DecafBackend
