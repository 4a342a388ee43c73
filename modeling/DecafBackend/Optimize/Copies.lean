import DecafBackend.Flow.Solver

/-! # Copy propagation

    While a variable holds a copy of another location, a load of the
    variable can read that location instead.  The copies themselves stay.

    * `Copies` — the copies valid at a point
    * `Copies.step` — what a statement does to them
    * `propagateCopies` — redirects the loads of a body -/

namespace DecafBackend

/-- The copies valid at a point: a location maps to the one it was last
    written from, where neither has changed since. -/
structure Copies where
  /-- The source of each location that holds a copy. -/
  sources : Std.ExtTreeMap Loc Loc := ∅
deriving DecidableEq

namespace Copies

/-- What a read of a location can read instead. -/
def source? (copies : Copies) (loc : Loc) : Option Loc := copies.sources[loc]?

/-- The copies that survive a write: those that do not involve the location. -/
def kill (copies : Copies) (loc : Loc) : Copies :=
  ⟨copies.sources.filter fun dest src => dest ≠ loc ∧ src ≠ loc⟩

/-- The copies that survive a call: those of locations that the callee cannot
    write. -/
def killGlobals (copies : Copies) (body : Body) : Checked Copies := do
  let globals ← copies.sources.toList.filterM fun (_, src) => body.isGlobal src
  return ⟨globals.foldl (fun sources (dest, _) => sources.erase dest) copies.sources⟩

/-- The copies valid on both of two paths. -/
def meet (copies other : Copies) : Copies :=
  ⟨copies.sources.filter fun dest src => other.sources[dest]? = some src⟩

/-- What a save leaves to be recorded: the location that the saved value is
    a copy of, seen through earlier copies. -/
def savedSource (body : Body) (copies : Copies) (value : Inst) : Checked (Option Loc) := do
  match ← body.record value with
  | .load src => return some ((copies.source? src).getD src)
  | _ => return none

/-- Whether a copy can be recorded: only variables of the method hold copies,
    never of themselves, and never of a literal text. -/
def isRecordable (body : Body) (src dest : Loc) : Checked Bool := do
  match ← body.location src with
  | .literal _ => return false
  | _ => if src = dest then return false else body.isTracked dest

/-- Moves over a statement. -/
def step (body : Body) (copies : Copies) (stmt : Inst) : Checked Copies := do
  let copies ← if ← body.hasCall stmt then copies.killGlobals body else pure copies
  match ← body.record stmt with
  | .save value dest =>
    let src ← savedSource body copies value
    let copies := copies.kill dest
    match src with
    | none => return copies
    | some src =>
      if ← isRecordable body src dest then return ⟨copies.sources.insert dest src⟩
      else return copies
  | _ => return copies

/-- The loads of a statement that can be redirected, with where to. -/
def redirects (body : Body) (copies : Copies) (stmt : Inst) : Checked (List (Inst × Loc)) := do
  (← body.reads stmt).filterMapM fun access => do
    match ← body.record access.inst with
    | .load _ => return (copies.source? access.loc).map (Prod.mk access.inst)
    | _ => return none

/-- Copy propagation as a dataflow problem. -/
def analysis (body : Body) : Analysis Copies where
  direction := .forward
  initial := {}
  bottom := {}
  join := meet
  transfer block copies := (body.stmtsOf block).foldlM (step body) copies

/-- The loads of a run of statements that can be redirected. -/
def redirectsIn (body : Body) : List Inst → Copies → Checked (List (Inst × Loc))
  | [], _ => return []
  | stmt :: rest, copies => do
    let here ← redirects body copies stmt
    return here ++ (← redirectsIn body rest (← step body copies stmt))

end Copies

/-- Makes a record that is a load read another location. -/
def Body.redirect (body : Body) (load : Inst) (src : Loc) : Body :=
  match body.records[load.index]? with
  | some (.load _) => body.setRecord load (.load src)
  | _ => body

/-- Redirects loads of copies to where the copies came from.  Gives the
    number of loads and the new body. -/
def propagateCopies (steps : Nat) (body : Body) : Checked (Nat × Body) := do
  let graph ← FlowGraph.ofBody body
  let solution ← solve steps graph (Copies.analysis body)
  let redirects ← body.blockKeys.mapM fun block => do
    Copies.redirectsIn body (body.stmtsOf block) (← solution.input block)
  let redirects := redirects.flatten
  return (redirects.length, redirects.foldl (fun body (load, src) => body.redirect load src) body)

end DecafBackend
