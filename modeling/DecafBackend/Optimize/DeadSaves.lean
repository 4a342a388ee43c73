import DecafBackend.Flow.Liveness

/-! # Dead saves

    A save to a variable or temporary of the method whose value reaches no
    read does nothing, and neither does a copy of such a location to itself.
    Both are deleted; a call that such a save made stays as a statement.
    Deleting a save can make others dead, so this is repeated until nothing
    is deleted. -/

namespace DecafBackend

namespace DeadSaves

/-- Whether a statement copies a location of the method to itself. -/
def isSelfCopy (body : Body) (stmt : Inst) : Checked Bool := do
  match ← body.record stmt with
  | .save value dest =>
    match ← body.record value with
    | .load src => if src = dest then body.isTracked dest else return false
    | _ => return false
  | _ => return false

/-- The saves that do nothing. -/
def find (body : Body) (liveness : Liveness) : Checked (List Inst) :=
  body.stmts.filterM fun stmt =>
    if liveness.isDead stmt then return true else isSelfCopy body stmt

/-- Deletes a save, keeping the call that it made. -/
def delete (body : Body) (save : Inst) : Checked Body := do
  match ← body.record save with
  | .save value _ =>
    if (← body.record value).isCall then body.replace save value else body.remove save
  | _ => return body

/-- Deletes dead saves in at most `rounds` rounds. -/
def deleteWithin (graph : FlowGraph) : Nat → Nat → Body → Checked (Nat × Body)
  | 0, _, _ => .error .unsettled
  | rounds + 1, deleted, body => do
    let liveness ← Liveness.compute body graph
    let dead ← find body liveness
    if dead.isEmpty then return (deleted, body)
    else deleteWithin graph rounds (deleted + dead.length) (← dead.foldlM delete body)

end DeadSaves

/-- Deletes dead saves until there are none.  Gives the number of saves
    deleted and the new body.  Every round but the last deletes a save, so
    the number of statements bounds the rounds. -/
def eliminateDeadSaves (body : Body) : Checked (Nat × Body) := do
  let graph ← FlowGraph.ofBody body
  DeadSaves.deleteWithin graph (body.stmts.length + 1) 0 body

end DecafBackend
