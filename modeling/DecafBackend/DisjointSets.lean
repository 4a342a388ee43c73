import DecafBackend.Key
import DecafBackend.Text.Listing

/-! # Disjoint sets

    A partition of the keys of one kind.  Each key that is not the smallest
    of its set points to a smaller key of it; a key that points nowhere is
    the representative of its set, and hence the smallest key in it.

    * `root` — the representative of a key
    * `find` — the same, with the path to it shortened
    * `union` — merges two sets -/

namespace DecafBackend

/-- A partition of keys, as pointers towards each set's smallest key. -/
structure DisjointSets (kind : KeyKind) where
  /-- Where each key that is no representative points. -/
  parents : Std.ExtTreeMap (Key kind) (Key kind) := ∅

namespace DisjointSets

variable {kind : KeyKind}

/-- Follows at most `steps` pointers. -/
def rootWithin (parents : Std.ExtTreeMap (Key kind) (Key kind)) : Nat → Key kind → Key kind
  | 0, key => key
  | steps + 1, key =>
    match parents[key]? with
    | none => key
    | some parent => if parent = key then key else rootWithin parents steps parent

/-- The representative of a key's set.  Pointers lead to smaller keys, so
    the index of the key bounds the length of its path. -/
def root (sets : DisjointSets kind) (key : Key kind) : Key kind :=
  rootWithin sets.parents key.index key

/-- Points the keys on a path of at most `steps` pointers at its end. -/
def compress (target : Key kind) :
    Nat → Key kind → Std.ExtTreeMap (Key kind) (Key kind) → Std.ExtTreeMap (Key kind) (Key kind)
  | 0, _, parents => parents
  | steps + 1, key, parents =>
    if key = target then parents
    else
      match parents[key]? with
      | none => parents
      | some parent => compress target steps parent (parents.insert key target)

/-- The representative of a key's set, with every key on the way to it
    pointed straight at it. -/
def find (sets : DisjointSets kind) (key : Key kind) : Key kind × DisjointSets kind :=
  let target := sets.root key
  (target, ⟨compress target key.index key sets.parents⟩)

/-- Merges the sets of two keys and gives the representative of the result. -/
def union (sets : DisjointSets kind) (a b : Key kind) : Key kind × DisjointSets kind :=
  let (ra, sets) := sets.find a
  let (rb, sets) := sets.find b
  let (target, child) := if ra ≤ rb then (ra, rb) else (rb, ra)
  (target, if target = child then sets else ⟨sets.parents.insert child target⟩)

/-- Whether two keys are in one set. -/
def same (sets : DisjointSets kind) (a b : Key kind) : Bool × DisjointSets kind :=
  let (ra, sets) := sets.find a
  let (rb, sets) := sets.find b
  (ra == rb, sets)

/-- Whether every set has one key only. -/
def isTrivial (sets : DisjointSets kind) : Bool := sets.parents.isEmpty

/-- Disjoint sets as printed. -/
def describe (sets : DisjointSets kind) : String :=
  Text.record "UnionFind" [("parents",
    Text.map (sets.parents.toList.map fun (key, parent) => (key.describe, parent.describe)))]

end DisjointSets

end DecafBackend
