import DecafBackend.Flow.Solver
import DecafBackend.Optimize.Available
import DecafBackend.Optimize.ValueNumbers

/-! # Common subexpressions

    A save whose value is computed already loads it from where it is held
    instead.  To have a holder that later writes do not disturb, every save
    that computes something, or copies a variable, also leaves its value in a
    temporary of its own.

    The terms that the analysis tracks depend on the statements alone, so the
    transfer of a block is a fixed set of facts taken away and added, and the
    join is an intersection.  Where two paths hold a term in different
    temporaries, these become one temporary after the analysis has settled.

    * `siteTemps` — the temporary of every save that has one
    * `Walk.step` — what a save does to the facts, and how it is changed
    * `eliminateCommonTerms` — the changed body -/

namespace DecafBackend

/-- A change to a body. -/
inductive Edit
  /-- The save loads its value from a location. -/
  | reuse (save : Inst) (source : Loc)
  /-- The destination of the save is copied to a temporary after it. -/
  | remember (save : Inst) (temp : Loc)
deriving DecidableEq

namespace CommonTerms

/-- The term that a value computes, if its operands are loads. -/
def termOf (body : Body) (value : Inst) : Checked (Option Term) := do
  match ← body.record value with
  | .load src => return some (.leaf src)
  | .unary op operand =>
    match ← body.record operand with
    | .load src => return some (.unary op src)
    | _ => return none
  | .binary op lhs rhs =>
    match ← body.record lhs with
    | .load left =>
      match ← body.record rhs with
      | .load right => return some (.canonical op left right)
      | _ => return none
    | _ => return none
  | _ => return none

/-- Whether a statement gets a temporary: a save of a computation, or of
    another variable. -/
def isSite (body : Body) (stmt : Inst) : Checked Bool := do
  match ← body.record stmt with
  | .save value dest =>
    match ← body.record value with
    | .binary _ _ _ | .unary _ _ => return true
    | .load src => if src = dest then return false else body.isVariable src
    | _ => return false
  | _ => return false

/-- Gives every save that needs one a temporary of its own. -/
def siteTemps (body : Body) : Checked (Std.ExtTreeMap Inst Loc × Body) := do
  let sites ← body.stmts.filterM (isSite body)
  return sites.foldl (fun (temps, body) site =>
    let (temp, body) := body.newLocation .temp
    (temps.insert site temp, body)) (∅, body)

/-- Whether a term is worth loading from a holder.  A copy is never made to
    read a field, nor to read anything in place of an immediate. -/
def worthReusing (body : Body) (term : Term) (holder : Loc) : Checked Bool := do
  match term with
  | .leaf src => if ← body.isVariable src then return !(← body.isGlobal holder) else return false
  | _ => return true

/-- The facts and numbers on the way through a block, and the changes found. -/
structure Walk where
  /-- The facts at this point. -/
  facts : Available
  /-- The numbers given out in this block. -/
  table : NumberTable := {}
  /-- The changes so far. -/
  edits : List Edit := []

/-- Where a save can load its term from: the temporary that holds its value
    number, or else the first holder of the term that is worth it. -/
def reuseSource (body : Body) (walk : Walk) (term : Term) (number : ValueNumber) (dest : Loc) :
    Checked (Option Loc) :=
  let numbered := if term.isLeaf then [] else walk.table.temps[number]?.toList
  (numbered ++ walk.facts.holdersOf term).findM? fun holder =>
    if holder = dest then return false else worthReusing body term holder

/-- Moves over a save of a value that is no term. -/
def Walk.overwrite (walk : Walk) (dest : Loc) : Walk :=
  let (number, table) := walk.table.fresh
  { walk with facts := walk.facts.kill dest, table := table.define dest number }

/-- Records that a save wrote a term that its destination does not take part
    in, and leaves it in the temporary of the save. -/
def Walk.recordTerm (walk : Walk) (temps : Std.ExtTreeMap Inst Loc) (save : Inst) (term : Term)
    (number : ValueNumber) (dest : Loc) : Walk :=
  let facts := walk.facts.register term dest
  match temps[save]? with
  | none => { walk with facts }
  | some temp =>
    let table := walk.table.define temp number
    { facts := (facts.kill temp).register term temp
      table := if term.isLeaf then table else table.remember number temp
      edits := walk.edits ++ [.remember save temp] }

/-- Moves over a save of a term. -/
def Walk.saveTerm (body : Body) (temps : Std.ExtTreeMap Inst Loc) (walk : Walk) (save : Inst)
    (term : Term) (dest : Loc) : Checked Walk := do
  let (number, table) := walk.table.ofTerm term
  let walk := { walk with table }
  let source ← reuseSource body walk term number dest
  let walk := { walk with
    facts := walk.facts.kill dest
    table := walk.table.define dest number
    edits := walk.edits ++ (source.map (Edit.reuse save)).toList }
  if term.mentions dest then return walk
  else return walk.recordTerm temps save term number dest

/-- Moves over a statement. -/
def Walk.step (body : Body) (temps : Std.ExtTreeMap Inst Loc) (walk : Walk) (stmt : Inst) :
    Checked Walk := do
  let walk ← if ← body.hasCall stmt then
      pure { walk with
        facts := ← walk.facts.killGlobals body
        table := ← walk.table.forgetGlobals body }
    else pure walk
  match ← body.record stmt with
  | .save value dest =>
    match ← termOf body value with
    | none => return walk.overwrite dest
    | some term => walk.saveTerm body temps stmt term dest
  | _ => return walk

/-- Moves over a block. -/
def walkBlock (body : Body) (temps : Std.ExtTreeMap Inst Loc) (block : Block)
    (facts : Available) : Checked Walk :=
  (body.stmtsOf block).foldlM (Walk.step body temps) { facts }

/-- Available terms as a dataflow problem. -/
def analysis (body : Body) (temps : Std.ExtTreeMap Inst Loc) : Analysis Available where
  direction := .forward
  initial := {}
  bottom := {}
  join := .meet
  transfer block facts := Walk.facts <$> walkBlock body temps block facts

/-- Whether a location is a temporary. -/
def isTemp (body : Body) (loc : Loc) : Bool := body.locations[loc.index]? == some .temp

/-- Joins the states that enter a block, putting temporaries that hold one
    term on different paths into one set. -/
def mergeInputs (body : Body) (aliases : DisjointSets .loc) :
    List Available → DisjointSets .loc × Available
  | [] => (aliases, {})
  | facts :: rest =>
    rest.foldl (fun (aliases, facts) other =>
      Available.meetMerging (isTemp body) aliases facts other) (aliases, facts)

/-- Finds the changes to every block, and the temporaries to be made one. -/
def findEdits (body : Body) (temps : Std.ExtTreeMap Inst Loc) (graph : FlowGraph)
    (solution : Solution Available) : Checked (DisjointSets .loc × List Edit) :=
  graph.reversePostorder.foldlM (fun (aliases, edits) block => do
    let inputs := (analysis body temps).contributions graph solution block
    let (aliases, facts) := mergeInputs body aliases inputs
    let walk ← walkBlock body temps block facts
    return (aliases, edits ++ walk.edits)) ({}, [])

/-- Carries out a change. -/
def applyEdit (body : Body) : Edit → Checked Body
  | .reuse save source => do
    let (load, body) := body.create (.load source)
    match ← body.record save with
    | .save _ dest => return body.setRecord save (.save load dest)
    | _ => return body
  | .remember save temp => do
    match ← body.record save with
    | .save _ dest =>
      let (load, body) := body.create (.load dest)
      let (copy, body) := body.create (.save load temp)
      body.insertAfter copy save
    | _ => return body

/-- Replaces every location in the records of the statements by the
    representative of its set. -/
def renameAliases (aliases : DisjointSets .loc) (body : Body) : Checked Body :=
  body.stmts.foldlM (fun body stmt => do
    (← body.valueTree stmt).foldlM (fun body inst => do
      return body.setRecord inst ((← body.record inst).mapLocs aliases.root)) body) body

end CommonTerms

open CommonTerms in
/-- Reuses computed values wherever an equal term is still available.  Gives
    the number of computations replaced and the new body. -/
def eliminateCommonTerms (steps : Nat) (body : Body) : Checked (Nat × Body) := do
  let graph ← FlowGraph.ofBody body
  let (temps, body) ← siteTemps body
  let solution ← solve steps graph (analysis body temps)
  let (aliases, edits) ← findEdits body temps graph solution
  let reused := edits.countP fun edit => edit matches .reuse _ _
  let body ← edits.foldlM applyEdit body
  if aliases.isTrivial then return (reused, body)
  else return (reused, ← renameAliases aliases body)

end DecafBackend
