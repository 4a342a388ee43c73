import Mathlib.Logic.Relation
import DecafBackend.Proofs.DisjointSets

/-! # Components

    Unions connect keys.  After any operations the representative of a key is the
    smallest key that it is connected to, the loops that look for it and that
    shorten the way to it end, and shortening is nothing that a later answer
    could tell.

    * `Operation.run`, `runAll` — operations one after another, with their answers
    * `Connected`, `IsSmallest` — what unions connect, and the smallest of it
    * `climb?`, `shorten?` — one round of each loop
    * `Fits` — the invariant: representatives and unions say the same
    * `Exact`, `runAll_exact` — what holds after any operations -/

namespace DecafBackend.DisjointSets

variable {kind : KeyKind}

/-! ## Operations -/

/-- An operation on disjoint sets. -/
inductive Operation (kind : KeyKind)
  /-- Merges the sets of two keys. -/
  | union (a b : Key kind)
  /-- Looks a representative up and shortens the way to it. -/
  | find (key : Key kind)
  /-- Looks a representative up. -/
  | look (key : Key kind)
  /-- Asks whether two keys are in one set. -/
  | same (a b : Key kind)

/-- What an operation answers. -/
inductive Answer (kind : KeyKind)
  /-- A representative. -/
  | key (key : Key kind)
  /-- Whether keys are in one set. -/
  | truth (value : Bool)

namespace Operation

/-- Carries an operation out. -/
def run (sets : DisjointSets kind) : Operation kind → Answer kind × DisjointSets kind
  | union a b => ((sets.union a b).map .key id)
  | find key => (sets.find key).map .key id
  | look key => (.key (sets.root key), sets)
  | same a b => (sets.same a b).map .truth id

/-- The keys that an operation connects. -/
def links : Operation kind → List (Key kind × Key kind)
  | union a b => [(a, b)]
  | find _ | look _ | same _ _ => []

end Operation

/-- Carries operations out one after another, and lists their answers. -/
def runAll : List (Operation kind) → DisjointSets kind → List (Answer kind) × DisjointSets kind
  | [], sets => ([], sets)
  | operation :: rest, sets =>
    let (answer, sets) := operation.run sets
    let (answers, sets) := runAll rest sets
    (answer :: answers, sets)

/-! ## What unions connect -/

/-- Keys are connected by the pairs of keys that were united. -/
def Connected (links : List (Key kind × Key kind)) : Key kind → Key kind → Prop :=
  Relation.EqvGen fun a b => (a, b) ∈ links

/-- The smallest of the keys that a key is connected to. -/
structure IsSmallest (links : List (Key kind × Key kind)) (key smallest : Key kind) : Prop where
  connected : Connected links key smallest
  le : ∀ other, Connected links key other → smallest ≤ other

/-- The right answers, if the keys in `links` are united when the operation is
    done. -/
def Operation.Answered (links : List (Key kind × Key kind)) : Operation kind → Answer kind → Prop
  | union a b, .key smallest => IsSmallest links a smallest ∧ IsSmallest links b smallest
  | find key, .key smallest | look key, .key smallest => IsSmallest links key smallest
  | same a b, .truth value => value = true ↔ Connected links a b
  | _, _ => False

/-- More unions connect more. -/
theorem Connected.mono {links more : List (Key kind × Key kind)} (hsubset : links ⊆ more)
    {a b : Key kind} (h : Connected links a b) : Connected more a b :=
  Relation.EqvGen.mono (fun _ _ hmem => hsubset hmem) a b h

/-- The smallest key of a component is unique. -/
theorem IsSmallest.unique {links : List (Key kind × Key kind)} {key : Key kind} :
    ∀ {a b : Key kind}, IsSmallest links key a → IsSmallest links key b → a = b
  | ⟨_⟩, ⟨_⟩, ha, hb =>
    congrArg Key.mk (Nat.le_antisymm (ha.le _ hb.connected) (hb.le _ ha.connected))

/-! ## The loops -/

/-- One round of the loop that looks for a representative: on to where the key
    points, if that is another key. -/
def climb? (sets : DisjointSets kind) (key : Key kind) : Option (Key kind) :=
  match sets.parents[key]? with
  | none => none
  | some parent => if parent = key then none else some parent

/-- One round of the loop that points the keys on a way at its end: on to where
    the key pointed before, unless the end is reached. -/
def shorten? (target : Key kind) :
    Key kind × DisjointSets kind → Option (Key kind × DisjointSets kind)
  | (key, sets) =>
    if key = target then none
    else
      match sets.parents[key]? with
      | none => none
      | some parent => some (parent, ⟨sets.parents.insert key target⟩)

/-- A loop goes from one state to another in some rounds. -/
def Loops {σ : Type} (round : σ → Option σ) : σ → σ → Prop :=
  Relation.ReflTransGen fun state next => round state = some next

variable {sets other : DisjointSets kind}

/-- A pointer never leads from a key to itself. -/
theorem Ordered.ne (hordered : sets.Ordered) {key parent : Key kind}
    (hparent : sets.parents[key]? = some parent) : parent ≠ key := by
  rintro rfl
  exact Nat.lt_irrefl _ (hordered hparent)

/-- A key that does not represent itself points to a key with the same
    representative, and that is a larger one than the representative. -/
theorem Ordered.exists_parent (hordered : sets.Ordered) {key : Key kind}
    (hne : key ≠ sets.root key) : ∃ parent, sets.parents[key]? = some parent ∧
      sets.root parent = sets.root key ∧ (sets.root key).index < key.index := by
  cases hparent : sets.parents[key]? with
  | none => exact absurd (root_of_none hparent).symm hne
  | some parent =>
      have hroot := hordered.isRoot.child hparent
      have hlt := hordered hparent
      have hle := hordered.root_le parent
      rw [← hroot] at hle
      exact ⟨parent, rfl, hroot.symm, by omega⟩

/-- **LOOKING ENDS** at the representative. -/
theorem Ordered.climbs (hordered : sets.Ordered) (key : Key kind) :
    Loops sets.climb? key (sets.root key) ∧ sets.climb? (sets.root key) = none := by
  refine ⟨?_, by rw [climb?, hordered.parent_root key]⟩
  -- pointers lead to smaller keys
  induction hindex : key.index using Nat.strongRecOn generalizing key with
  | ind n ih =>
      by_cases heq : key = sets.root key
      · rw [← heq]
        exact .refl
      · obtain ⟨parent, hparent, hroot, -⟩ := hordered.exists_parent heq
        have hround : sets.climb? key = some parent := by
          rw [climb?, hparent]
          exact if_neg (hordered.ne hparent)
        rw [← hroot]
        exact .head hround (ih parent.index (hindex ▸ hordered hparent) parent rfl)

/-- Pointing a key at its representative changes no representative. -/
theorem Ordered.repoint (hordered : sets.Ordered) {key : Key kind} (hne : key ≠ sets.root key) :
    Ordered ⟨sets.parents.insert key (sets.root key)⟩ ∧
      ∀ other, root ⟨sets.parents.insert key (sets.root key)⟩ other = sets.root other := by
  obtain ⟨-, -, -, hlt⟩ := hordered.exists_parent hne
  have hinsert : Ordered ⟨sets.parents.insert key (sets.root key)⟩ := hordered.insert hlt
  exact ⟨hinsert, (isRoot_insert (fun _ => hordered.isRoot.top) (fun _ => hordered.isRoot.child)
    (hordered.root_root key).symm).root_eq hinsert⟩

/-- **SHORTENING ENDS**: the loop finds a pointer in every round, and comes to the
    representative with the pointers as `find` leaves them. -/
theorem Ordered.shortens (hordered : sets.Ordered) (key : Key kind) :
    Loops (shorten? (sets.root key)) (key, sets) (sets.root key, (sets.find key).2) ∧
      shorten? (sets.root key) (sets.root key, (sets.find key).2) = none := by
  refine ⟨?_, if_pos rfl⟩
  -- by induction on the steps, for every sets: each round repoints one key and moves on
  have hloop : ∀ {steps : Nat} {sets : DisjointSets kind} {key : Key kind}, sets.Ordered →
      key.index ≤ steps → Loops (shorten? (sets.root key)) (key, sets)
        (sets.root key, ⟨compress (sets.root key) steps key sets.parents⟩) := by
    intro steps
    induction steps with
    | zero =>
        intro sets key hordered hsteps
        -- nothing is smaller than the first key
        by_cases heq : key = sets.root key
        · rw [← heq]
          exact .refl
        · obtain ⟨-, -, -, hlt⟩ := hordered.exists_parent heq
          omega
    | succ steps ih =>
        intro sets key hordered hsteps
        rw [compress]
        by_cases heq : key = sets.root key
        · rw [if_pos heq, ← heq]
          exact .refl
        · obtain ⟨parent, hparent, hroot, -⟩ := hordered.exists_parent heq
          obtain ⟨hnext, hsame⟩ := hordered.repoint heq
          have hlt := hordered hparent
          have hround : shorten? (sets.root key) (key, sets) =
              some (parent, ⟨sets.parents.insert key (sets.root key)⟩) := by
            simp only [shorten?, if_neg heq, hparent]
          have hrest := @ih ⟨sets.parents.insert key (sets.root key)⟩ parent hnext (by omega)
          rw [hsame, hroot] at hrest
          rw [if_neg heq, hparent]
          exact .head hround hrest
  exact hloop hordered (Nat.le_refl _)

/-! ## Representatives are the smallest connected keys -/

/-- A union answers with the smaller representative. -/
theorem union_fst (hordered : sets.Ordered) (a b : Key kind) :
    (sets.union a b).1 = (sets.root a).least (sets.root b) := by
  have hb : ((sets.find a).2.find b).1 = sets.root b := (root_find hordered a).2 b
  rw [union, Key.least]
  dsimp only
  rw [hb, find_fst]
  split <;> rfl

/-- Two keys are in one set if they have the same representative. -/
theorem same_fst (hordered : sets.Ordered) (a b : Key kind) :
    (sets.same a b).1 = (sets.root a == sets.root b) := by
  have hb : ((sets.find a).2.find b).1 = sets.root b := (root_find hordered a).2 b
  rw [same]
  dsimp only
  rw [hb, find_fst]

/-- Representatives and unions say the same. -/
structure Fits (links : List (Key kind × Key kind)) (sets : DisjointSets kind) : Prop where
  ordered : sets.Ordered
  connected : ∀ key, Connected links key (sets.root key)
  joined : ∀ {a b : Key kind}, (a, b) ∈ links → sets.root a = sets.root b

namespace Fits

variable {links : List (Key kind × Key kind)}

/-- Without unions every key is alone. -/
theorem empty : Fits [] ({} : DisjointSets kind) where
  ordered := Ordered.empty
  connected key := by
    rw [root_empty]
    exact .refl key
  joined h := absurd h List.not_mem_nil

/-- Connected keys have one representative, and no others have. -/
theorem root_eq_iff (h : Fits links sets) {a b : Key kind} :
    sets.root a = sets.root b ↔ Connected links a b := by
  constructor
  · intro heq
    have hb := (h.connected b).symm
    rw [← heq] at hb
    exact (h.connected a).trans _ _ _ hb
  · intro hab
    induction hab with
    | rel a b hmem => exact h.joined hmem
    | refl a => rfl
    | symm a b _ ih => exact ih.symm
    | trans a b c _ _ hfirst hsecond => exact hfirst.trans hsecond

/-- The representative is the smallest key that is connected. -/
theorem isSmallest (h : Fits links sets) (key : Key kind) :
    IsSmallest links key (sets.root key) where
  connected := h.connected key
  le other hother := by
    rw [h.root_eq_iff.mpr hother]
    exact Ordered.root_le h.ordered other

/-- Other pointers to the same representatives. -/
theorem congr (h : Fits links sets) (hordered : other.Ordered)
    (hsame : ∀ key, other.root key = sets.root key) : Fits links other where
  ordered := hordered
  connected key := by
    rw [hsame]
    exact h.connected key
  joined hmem := by rw [hsame, hsame, h.joined hmem]

/-- To look a key up changes no set. -/
theorem find (h : Fits links sets) (key : Key kind) : Fits links (sets.find key).2 :=
  h.congr (root_find h.ordered key).1 (root_find h.ordered key).2

/-- To unite two keys fits one union more. -/
theorem union (h : Fits links sets) (a b : Key kind) :
    Fits (links ++ [(a, b)]) (sets.union a b).2 := by
  obtain ⟨hordered, hroot⟩ := root_union h.ordered a b
  have hold : ∀ {x y}, Connected links x y → Connected (links ++ [(a, b)]) x y :=
    Connected.mono (List.subset_append_left _ _)
  have hab : Connected (links ++ [(a, b)]) a b :=
    .rel a b (List.mem_append_right _ List.mem_cons_self)
  refine ⟨hordered, fun key => ?_, fun {x y} hmem => ?_⟩
  · -- the representatives of both keys are connected to all that one of them represents
    rw [hroot]
    split
    · next hone =>
        have hkey : Connected (links ++ [(a, b)]) key a := by
          rcases hone with heq | heq
          · exact hold (h.root_eq_iff.mp heq)
          · exact (hold (h.root_eq_iff.mp heq)).trans _ _ _ hab.symm
        rcases least_cases (sets.root a) (sets.root b) with ⟨hleast, -⟩ | ⟨hleast, -⟩
        · rw [hleast]
          exact hkey.trans _ _ _ (hold (h.connected a))
        · rw [hleast]
          exact hkey.trans _ _ _ (hab.trans _ _ _ (hold (h.connected b)))
    · exact hold (h.connected key)
  · rcases List.mem_append.mp hmem with hmem | hlast
    · exact root_union_mono h.ordered a b (h.joined hmem)
    · cases List.mem_singleton.mp hlast
      exact root_union_self h.ordered a b

/-- **ONE OPERATION**: its answer is right, and what it leaves fits the unions. -/
theorem run (h : Fits links sets) (operation : Operation kind) :
    operation.Answered (links ++ operation.links) (operation.run sets).1 ∧
      Fits (links ++ operation.links) (operation.run sets).2 := by
  cases operation with
  | union a b =>
      have hunion := h.union a b
      have ha := hunion.isSmallest a
      have hb := hunion.isSmallest b
      rw [(root_union h.ordered a b).2, if_pos (Or.inl rfl)] at ha
      rw [(root_union h.ordered a b).2, if_pos (Or.inr rfl)] at hb
      rw [← union_fst h.ordered] at ha hb
      exact ⟨⟨ha, hb⟩, hunion⟩
  | find key =>
      rw [Operation.links, List.append_nil]
      exact ⟨h.isSmallest key, h.find key⟩
  | look key =>
      rw [Operation.links, List.append_nil]
      exact ⟨h.isSmallest key, h⟩
  | same a b =>
      rw [Operation.links, List.append_nil]
      refine ⟨?_, (h.find a).find b⟩
      show (sets.same a b).1 = true ↔ Connected links a b
      rw [same_fst h.ordered, beq_iff_eq, h.root_eq_iff]

/-- **ANY NUMBER OF OPERATIONS** leave what fits all their unions. -/
theorem runAll (h : Fits links sets) (operations : List (Operation kind)) :
    Fits (links ++ operations.flatMap Operation.links) (DisjointSets.runAll operations sets).2 := by
  induction operations generalizing links sets with
  | nil =>
      rw [List.flatMap_nil, List.append_nil]
      exact h
  | cons operation rest ih =>
      rw [List.flatMap_cons, ← List.append_assoc]
      exact ih (h.run operation).2

end Fits

/-! ## Later answers -/

/-- Pointers that give every key the same representative. -/
structure Alike (sets other : DisjointSets kind) : Prop where
  ordered : sets.Ordered ∧ other.Ordered
  root : ∀ key, sets.root key = other.root key

namespace Alike

/-- **ONE OPERATION**: sets with the same representatives answer alike and stay so. -/
theorem run (h : Alike sets other) (operation : Operation kind) :
    (operation.run sets).1 = (operation.run other).1 ∧
      Alike (operation.run sets).2 (operation.run other).2 := by
  obtain ⟨⟨hsets, hother⟩, hroot⟩ := h
  have hfind : ∀ key, Alike (sets.find key).2 (other.find key).2 := fun key =>
    ⟨⟨(root_find hsets key).1, (root_find hother key).1⟩, fun x => by
      rw [(root_find hsets key).2, (root_find hother key).2, hroot]⟩
  cases operation with
  | union a b =>
      have hsmallest : (sets.union a b).1 = (other.union a b).1 := by
        rw [union_fst hsets, union_fst hother, hroot, hroot]
      refine ⟨congrArg Answer.key hsmallest, ⟨(root_union hsets a b).1, (root_union hother a b).1⟩,
        fun key => ?_⟩
      show (sets.union a b).2.root key = (other.union a b).2.root key
      rw [(root_union hsets a b).2, (root_union hother a b).2, hroot, hroot, hroot]
  | find key => exact ⟨congrArg Answer.key (hroot key), hfind key⟩
  | look key => exact ⟨congrArg Answer.key (hroot key), ⟨hsets, hother⟩, hroot⟩
  | same a b =>
      have htruth : (sets.same a b).1 = (other.same a b).1 := by
        rw [same_fst hsets, same_fst hother, hroot, hroot]
      obtain ⟨⟨hfirst, hfirst'⟩, hsame⟩ := hfind a
      refine ⟨congrArg Answer.truth htruth, ⟨(root_find hfirst b).1, (root_find hfirst' b).1⟩,
        fun key => ?_⟩
      show ((sets.find a).2.find b).2.root key = ((other.find a).2.find b).2.root key
      rw [(root_find hfirst b).2, (root_find hfirst' b).2, hsame]

/-- Sets with the same representatives answer alike to all that is asked. -/
theorem runAll (h : Alike sets other) (operations : List (Operation kind)) :
    (DisjointSets.runAll operations sets).1 = (DisjointSets.runAll operations other).1 := by
  induction operations generalizing sets other with
  | nil => rfl
  | cons operation rest ih =>
      obtain ⟨hanswer, hnext⟩ := h.run operation
      exact congrArg₂ List.cons hanswer (ih hnext)

end Alike

/-- An operation that unites nothing leaves every representative. -/
theorem Fits.alike {links : List (Key kind × Key kind)} (h : Fits links sets)
    {operation : Operation kind} (hidle : operation.links = []) :
    Alike (operation.run sets).2 sets := by
  have hnext := (h.run operation).2
  rw [hidle, List.append_nil] at hnext
  exact ⟨⟨hnext.ordered, h.ordered⟩,
    fun key => (hnext.isSmallest key).unique (h.isSmallest key)⟩

/-! ## After any operations -/

/-- What disjoint sets guarantee when the keys in `links` were united. -/
structure Exact (links : List (Key kind × Key kind)) (sets : DisjointSets kind) : Prop where
  /-- Looking for a representative ends, at the representative. -/
  climbs : ∀ key, Loops sets.climb? key (sets.root key) ∧ sets.climb? (sets.root key) = none
  /-- Shortening the way to it ends there too, with the pointers that are left. -/
  shortens : ∀ key, Loops (shorten? (sets.root key)) (key, sets)
    (sets.root key, (sets.find key).2) ∧
      shorten? (sets.root key) (sets.root key, (sets.find key).2) = none
  /-- Every operation gets the right answer. -/
  answers : ∀ operation : Operation kind,
    operation.Answered (links ++ operation.links) (operation.run sets).1
  /-- No later answer depends on an operation that unites nothing, whatever
      pointers it changed. -/
  unchanged : ∀ operation : Operation kind, operation.links = [] → ∀ later,
    (runAll later (operation.run sets).2).1 = (runAll later sets).1

/-- **THE SMALLEST OF EACH COMPONENT**: after any operations, looking for
    representatives ends, all answers are right, and shortened ways change none. -/
theorem runAll_exact (operations : List (Operation kind)) :
    Exact (operations.flatMap Operation.links) (runAll operations {}).2 := by
  have hfits := Fits.empty.runAll operations
  rw [List.nil_append] at hfits
  exact {
    climbs := Ordered.climbs hfits.ordered
    shortens := Ordered.shortens hfits.ordered
    answers := fun operation => (hfits.run operation).1
    unchanged := fun _ hidle => (hfits.alike hidle).runAll }

end DecafBackend.DisjointSets
