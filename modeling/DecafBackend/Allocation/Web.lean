import DecafBackend.DisjointSets
import DecafBackend.Flow.Liveness

/-! # Webs

    A web is one value to be allocated: definitions of a location that reach
    a common read, directly or through each other, and all the reads they
    reach.  Reads that no definition reaches form one web per location, which
    has no definitions. -/

namespace DecafBackend

/-- The kind of webs. -/
abbrev KeyKind.web : KeyKind := ⟨"Web", 32⟩

/-- The key of a web. -/
abbrev WebKey := Key .web

/-- The definitions and reads of one value. -/
structure Web where
  /-- The location that holds the value. -/
  loc : Loc
  /-- The saves that define it. -/
  defs : Std.ExtTreeSet Inst := ∅
  /-- The records that read it. -/
  uses : Std.ExtTreeSet Inst := ∅

namespace Web

/-- Whether the web has reads only. -/
def isDefless (web : Web) : Bool := web.defs.isEmpty

/-- The number of accesses. -/
def accessCount (web : Web) : Nat := web.defs.size + web.uses.size

end Web

/-- The webs of a body. -/
structure Webs where
  /-- The webs, each at the index of its key. -/
  webs : Array Web := #[]
  /-- The web of each definition. -/
  byDef : Std.ExtTreeMap Inst WebKey := ∅
  /-- The web of each read. -/
  byUse : Std.ExtTreeMap Access WebKey := ∅

namespace Webs

/-- The web that a key must name. -/
def get (webs : Webs) (key : WebKey) : Checked Web :=
  match webs.webs[key.index]? with
  | some web => .ok web
  | none => .error .outOfBounds

/-- The webs with their keys, in order. -/
def toList (webs : Webs) : List (WebKey × Web) :=
  webs.webs.toList.zipIdx.map fun (web, index) => (⟨index⟩, web)

/-- Adds a web for a location. -/
def newWeb (webs : Webs) (loc : Loc) : WebKey × Webs :=
  (⟨webs.webs.size⟩, { webs with webs := webs.webs.push { loc } })

/-- A definition with its location and the reads it reaches. -/
structure Definition where
  /-- The save. -/
  inst : Inst
  /-- The location it writes. -/
  loc : Loc
  /-- The reads it reaches. -/
  reads : List Inst

/-- The definitions of tracked locations, in order. -/
def definitions (body : Body) (liveness : Liveness) : Checked (List Definition) :=
  liveness.definitions.filterMapM fun (inst, reads) => do
    return (← body.record inst).dest?.map fun loc => { inst, loc, reads }

/-- Puts a definition into one set with the first definition that reached a
    common read. -/
def link (definition : Definition)
    (state : Std.ExtTreeMap Access Inst × DisjointSets .inst) (read : Inst) :
    Std.ExtTreeMap Access Inst × DisjointSets .inst :=
  let (first, sets) := state
  let access : Access := ⟨read, definition.loc⟩
  match first[access]? with
  | none => (first.insert access definition.inst, sets)
  | some other => (first, (sets.union other definition.inst).2)

/-- The sets of definitions that share reads. -/
def linkedDefinitions (definitions : List Definition) : DisjointSets .inst :=
  (definitions.foldl (fun state definition =>
    definition.reads.foldl (link definition) state) (∅, {})).2

/-- Adds a definition and the reads it reaches to the web of its set, which
    is made if it is the first one; `roots` has the web of each set. -/
def addDefinition (sets : DisjointSets .inst)
    (state : Std.ExtTreeMap Inst WebKey × Webs) (definition : Definition) :
    Std.ExtTreeMap Inst WebKey × Webs :=
  let (roots, webs) := state
  let root := sets.root definition.inst
  let (key, roots, webs) := match roots[root]? with
    | some key => (key, roots, webs)
    | none =>
      let (key, webs) := webs.newWeb definition.loc
      (key, roots.insert root key, webs)
  (roots,
    { webs := webs.webs.modify key.index fun web =>
        { web with
          defs := web.defs.insert definition.inst
          uses := definition.reads.foldl (·.insert ·) web.uses }
      byDef := webs.byDef.insert definition.inst key
      byUse := definition.reads.foldl
        (fun byUse read => byUse.insert ⟨read, definition.loc⟩ key) webs.byUse })

/-- Adds a read that no definition reaches to the web of its location;
    `defless` has the web of each location. -/
def addUnreached (body : Body) (state : Std.ExtTreeMap Loc WebKey × Webs) (read : Access) :
    Checked (Std.ExtTreeMap Loc WebKey × Webs) := do
  let (defless, webs) := state
  if !(← body.isTracked read.loc) || webs.byUse.contains read then return (defless, webs)
  else
    let (key, defless, webs) := match defless[read.loc]? with
      | some key => (key, defless, webs)
      | none =>
        let (key, webs) := webs.newWeb read.loc
        (key, defless.insert read.loc key, webs)
    return (defless,
      { webs with
        webs := webs.webs.modify key.index fun web =>
          { web with uses := web.uses.insert read.inst }
        byUse := webs.byUse.insert read key })

/-- The webs of a body. -/
def compute (body : Body) (liveness : Liveness) : Checked Webs := do
  let definitions ← definitions body liveness
  let sets := linkedDefinitions definitions
  let (_, webs) := definitions.foldl (addDefinition sets) (∅, {})
  let reads ← body.stmts.mapM body.reads
  let (_, webs) ← reads.flatten.foldlM (addUnreached body) (∅, webs)
  return webs

/-- The webs that a body's own liveness gives. -/
def ofBody (body : Body) : Checked Webs := do compute body (← Liveness.ofBody body)

end Webs

end DecafBackend
