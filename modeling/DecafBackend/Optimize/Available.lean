import DecafBackend.DisjointSets
import DecafBackend.IR.Body
import DecafBackend.Optimize.Term

/-! # Available terms

    A term is available at a point when every path there computed it and none
    of its operands changed since.  A location holds a term when it was
    written with its value and has not changed since.  A term can stay
    available after every location that held it was overwritten.

    The facts are indexed three ways: by term, by holder, and by operand. -/

namespace DecafBackend

/-- The terms available at a point, and the locations that hold them. -/
structure Available where
  /-- The locations that hold each available term. -/
  holders : Std.ExtTreeMap Term (Std.ExtTreeSet Loc) := ∅
  /-- The term that each holder holds. -/
  held : Std.ExtTreeMap Loc Term := ∅
  /-- The available terms that read each location. -/
  readers : Std.ExtTreeMap Loc (Std.ExtTreeSet Term) := ∅
deriving DecidableEq

namespace Available

/-- Whether a term is available. -/
def contains (facts : Available) (term : Term) : Bool := facts.holders.contains term

/-- The locations that hold a term, in order. -/
def holdersOf (facts : Available) (term : Term) : List Loc :=
  match facts.holders[term]? with
  | some holders => holders.toList
  | none => []

/-- The available terms, in order. -/
def terms (facts : Available) : List Term := facts.holders.keys

/-- The term that a location holds. -/
def valueOf (facts : Available) (loc : Loc) : Option Term := facts.held[loc]?

/-- Adds a term among the readers of a location. -/
def addReader (readers : Std.ExtTreeMap Loc (Std.ExtTreeSet Term)) (term : Term) (loc : Loc) :
    Std.ExtTreeMap Loc (Std.ExtTreeSet Term) :=
  readers.insert loc ((readers[loc]?.getD ∅).insert term)

/-- Takes a term from the readers of a location; a location without readers
    has no entry. -/
def dropReader (readers : Std.ExtTreeMap Loc (Std.ExtTreeSet Term)) (term : Term) (loc : Loc) :
    Std.ExtTreeMap Loc (Std.ExtTreeSet Term) :=
  match readers[loc]? with
  | none => readers
  | some terms =>
    let rest := terms.erase term
    if rest.isEmpty then readers.erase loc else readers.insert loc rest

/-- Makes a term available without a holder of its own. -/
def makeAvailable (facts : Available) (term : Term) : Available :=
  { facts with
    readers := term.operands.foldl (addReader · term) facts.readers
    holders := facts.holders.insert term (facts.holders[term]?.getD ∅) }

/-- Takes away what a location holds. -/
def unbind (facts : Available) (loc : Loc) : Available :=
  match facts.held[loc]? with
  | none => facts
  | some term =>
    { facts with
      held := facts.held.erase loc
      holders := match facts.holders[term]? with
        | none => facts.holders
        | some holders => facts.holders.insert term (holders.erase loc) }

/-- Makes a location hold a term, and nothing else. -/
def register (facts : Available) (term : Term) (loc : Loc) : Available :=
  let facts := (facts.unbind loc).makeAvailable term
  { facts with
    held := facts.held.insert loc term
    holders := facts.holders.insert term ((facts.holders[term]?.getD ∅).insert loc) }

/-- Makes a term unavailable, and its holders hold nothing. -/
def forget (facts : Available) (term : Term) : Available where
  held := (facts.holdersOf term).foldl (·.erase ·) facts.held
  holders := facts.holders.erase term
  readers := term.operands.foldl (dropReader · term) facts.readers

/-- What is left after a write: no term that reads the location is available,
    and the location holds nothing. -/
def kill (facts : Available) (loc : Loc) : Available :=
  let terms := match facts.readers[loc]? with
    | some terms => terms.toList
    | none => []
  (terms.foldl forget facts).unbind loc

/-- What is left after a call, which may write any field. -/
def killGlobals (facts : Available) (body : Body) : Checked Available := do
  let known : Std.ExtTreeSet Loc := (facts.readers.keys ++ facts.held.keys).foldl (·.insert ·) ∅
  let globals ← known.toList.filterM body.isGlobal
  return globals.foldl kill facts

/-- Makes a term available with some holders. -/
def keep (facts : Available) (term : Term) (holders : List Loc) : Available :=
  holders.foldl (·.register term ·) (facts.makeAvailable term)

/-- The locations that two sets have in common, in order. -/
def common (mine theirs : Std.ExtTreeSet Loc) : List Loc :=
  mine.toList.filter theirs.contains

/-- The facts that hold on both of two paths. -/
def meet (facts other : Available) : Available :=
  facts.holders.toList.foldl (fun out (term, mine) =>
    match other.holders[term]? with
    | none => out
    | some theirs => out.keep term (common mine theirs)) {}

/-- The facts that hold on both of two paths, where a term that both hold in
    temporaries, but in none of their own together, is held in one
    temporary: the first ones of both sides are put into one set, and the
    smaller of the two is the holder. -/
def meetMerging (isTemp : Loc → Bool) (aliases : DisjointSets .loc)
    (facts other : Available) : DisjointSets .loc × Available :=
  facts.holders.toList.foldl (fun (aliases, out) (term, mine) =>
    match other.holders[term]? with
    | none => (aliases, out)
    | some theirs =>
      match common mine theirs, mine.toList.find? isTemp, theirs.toList.find? isTemp with
      | [], some a, some b => ((aliases.union a b).2, out.keep term [a.least b])
      | holders, _, _ => (aliases, out.keep term holders)) (aliases, {})

end Available

end DecafBackend
