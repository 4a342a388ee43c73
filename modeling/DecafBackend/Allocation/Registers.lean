import DecafBackend.Allocation.Coloring

/-! # Register allocation

    Every access of a colored web is bound to the web's register; the rest
    stays in stack slots.  Every call is told which registers that a callee
    may change hold values needed after it.  Earlier bindings are forgotten. -/

namespace DecafBackend

/-- What an allocation did. -/
structure AllocationSummary where
  /-- The number of webs. -/
  webs : Nat
  /-- The number of webs in registers. -/
  colored : Nat
  /-- The number of webs that found no register. -/
  spilled : Nat
deriving DecidableEq

/-- The registers of a palette that can be handed out, each once. -/
def usablePalette (palette : List Register) : List Register :=
  (palette.filter Register.isAllocatable).eraseDups

/-- Binds the accesses of a web to a register. -/
def Bindings.bindWeb (bindings : Bindings) (web : Web) (register : Register) : Bindings :=
  (web.defs.toList ++ web.uses.toList).foldl
    (fun bindings inst => bindings.bind ⟨inst, web.loc⟩ register) bindings

/-- The registers that have to be preserved across a call, in order. -/
def Coloring.savedAcross (coloring : Coloring) (live : Std.ExtTreeSet WebKey) : List Register :=
  let registers : Std.ExtTreeSet Register := live.toList.foldl (fun found web =>
    match coloring.colors[web]? with
    | some register => if register.isCallerSaved then found.insert register else found
    | none => found) ∅
  registers.toList

/-- Sets the registers that a call has to preserve. -/
def Body.setSaved (body : Body) (call : Inst) (saved : List Register) : Body :=
  match body.records[call.index]? with
  | some (.call target args isExternal _) =>
    body.setRecord call (.call target args isExternal saved)
  | _ => body

/-- Allocates registers out of a palette. -/
def allocateRegisters (palette : List Register) (body : Body) :
    Checked (AllocationSummary × Body) := do
  let liveness ← Liveness.ofBody body
  let webs ← Webs.compute body liveness
  let interference ← InterferenceGraph.compute body liveness webs
  let coloring ← Coloring.compute interference webs (usablePalette palette)
  let bindings ← coloring.colors.toList.foldlM (fun (bindings : Bindings) (key, register) => do
    return bindings.bindWeb (← webs.get key) register) {}
  let body := interference.acrossCalls.toList.foldl (fun body (call, live) =>
    body.setSaved call (coloring.savedAcross live)) { body with bindings }
  let summary :=
    { webs := webs.webs.size
      colored := coloring.colors.size
      spilled := coloring.spilled.size }
  return (summary, body)

end DecafBackend
