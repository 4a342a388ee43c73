import DecafBackend.DisjointSets

/-! # Representatives

    Pointers lead to smaller keys, so every path ends, and it ends at the
    representative of its set.  Shortening paths changes no representative, and
    a union changes those of the two sets that it merges only.

    * `Ordered` — pointers lead to smaller keys
    * `IsRoot`, `root_eq` — what determines the representatives
    * `root_find`, `root_union` — representatives after an operation -/

namespace DecafBackend

namespace DisjointSets

variable {kind : KeyKind}

/-- Every pointer leads to a smaller key. -/
def Ordered (sets : DisjointSets kind) : Prop :=
  ∀ {key parent : Key kind}, sets.parents[key]? = some parent → parent.index < key.index

/-- A choice of representatives that fits the pointers: a key that points
    nowhere represents itself, and any other key has the representative of the
    key that it points to. -/
structure IsRoot (sets : DisjointSets kind) (r : Key kind → Key kind) : Prop where
  top : ∀ {key : Key kind}, sets.parents[key]? = none → r key = key
  child : ∀ {key parent : Key kind}, sets.parents[key]? = some parent → r key = r parent

variable {sets : DisjointSets kind}

/-- Without pointers every pointer leads down. -/
theorem Ordered.empty : Ordered ({} : DisjointSets kind) := by
  intro key parent h
  cases h

/-- A path of enough pointers ends at the representative. -/
theorem IsRoot.rootWithin_eq {r : Key kind → Key kind} (h : sets.IsRoot r) (hordered : sets.Ordered)
    {steps : Nat} {key : Key kind} (hsteps : key.index ≤ steps) :
    rootWithin sets.parents steps key = r key := by
  -- by induction on the steps: a pointer leads to a smaller key, so the steps do not run
  -- out
  induction steps generalizing key with
  | zero =>
      rw [rootWithin]
      cases hparent : sets.parents[key]? with
      | none => exact (h.top hparent).symm
      | some parent =>
          have := hordered hparent
          omega
  | succ steps ih =>
      rw [rootWithin]
      cases hparent : sets.parents[key]? with
      | none => exact (h.top hparent).symm
      | some parent =>
          have hlt := hordered hparent
          have hne : parent ≠ key := by
            rintro rfl
            exact Nat.lt_irrefl _ hlt
          dsimp only
          rw [if_neg hne, h.child hparent]
          exact ih (by omega)

/-- Only one choice of representatives fits. -/
theorem IsRoot.root_eq {r : Key kind → Key kind} (h : sets.IsRoot r) (hordered : sets.Ordered)
    (key : Key kind) : sets.root key = r key :=
  h.rootWithin_eq hordered (Nat.le_refl key.index)

/-- A key without a pointer is its own representative. -/
theorem root_of_none {key : Key kind} (h : sets.parents[key]? = none) : sets.root key = key := by
  rw [root]
  cases key.index with
  | zero => rfl
  | succ steps => rw [rootWithin, h]

/-- More pointers than the index of a key lead nowhere else. -/
theorem rootWithin_of_le (hordered : sets.Ordered) {steps : Nat} {key : Key kind}
    (hsteps : key.index ≤ steps) : rootWithin sets.parents steps key = sets.root key := by
  -- by induction on one of the two counts, so that neither has to be the exact one
  have hstable : ∀ {m n : Nat} {key : Key kind}, key.index ≤ m → key.index ≤ n →
      rootWithin sets.parents m key = rootWithin sets.parents n key := by
    intro m
    induction m with
    | zero =>
        intro n key hm hn
        cases n with
        | zero => rfl
        | succ n =>
            rw [rootWithin, rootWithin]
            cases hparent : sets.parents[key]? with
            | none => rfl
            | some parent =>
                have := hordered hparent
                omega
    | succ m ih =>
        intro n key hm hn
        rw [rootWithin]
        cases hparent : sets.parents[key]? with
        | none =>
            cases n with
            | zero => rfl
            | succ n => rw [rootWithin, hparent]
        | some parent =>
            have hlt := hordered hparent
            obtain ⟨n, rfl⟩ : ∃ k, n = k + 1 := ⟨n - 1, by omega⟩
            rw [rootWithin, hparent]
            dsimp only
            split
            · rfl
            · exact ih (by omega) (by omega)
  exact hstable hsteps (Nat.le_refl _)

/-- The representatives fit the pointers. -/
theorem Ordered.isRoot (hordered : sets.Ordered) : sets.IsRoot sets.root where
  top := root_of_none
  child {key parent} h := by
    have hlt := hordered h
    have hne : parent ≠ key := by
      rintro rfl
      exact Nat.lt_irrefl _ hlt
    obtain ⟨steps, hsteps⟩ : ∃ steps, key.index = steps + 1 := ⟨key.index - 1, by omega⟩
    rw [root, hsteps, rootWithin, h]
    dsimp only
    rw [if_neg hne]
    exact rootWithin_of_le hordered (by omega)

/-- A representative has no pointer. -/
theorem Ordered.parent_root (hordered : sets.Ordered) (key : Key kind) :
    sets.parents[sets.root key]? = none := by
  -- by induction on the length of the path
  induction hindex : key.index using Nat.strongRecOn generalizing key with
  | ind n ih =>
      cases hparent : sets.parents[key]? with
      | none => rw [root_of_none hparent, hparent]
      | some parent =>
          rw [hordered.isRoot.child hparent]
          exact ih parent.index (hindex ▸ hordered hparent) parent rfl

/-- The representative of a representative is the same. -/
theorem Ordered.root_root (hordered : sets.Ordered) (key : Key kind) :
    sets.root (sets.root key) = sets.root key := root_of_none (hordered.parent_root key)

/-- A representative is no larger than its key. -/
theorem Ordered.root_le (hordered : sets.Ordered) (key : Key kind) :
    (sets.root key).index ≤ key.index := by
  induction hindex : key.index using Nat.strongRecOn generalizing key with
  | ind n ih =>
      cases hparent : sets.parents[key]? with
      | none => rw [root_of_none hparent]; omega
      | some parent =>
          have hlt := hordered hparent
          rw [hordered.isRoot.child hparent]
          have := ih parent.index (hindex ▸ hlt) parent rfl
          omega

/-- Without pointers every key is its own representative. -/
theorem root_empty (key : Key kind) : ({} : DisjointSets kind).root key = key := root_of_none rfl

/-- Sets without pointers have every key alone. -/
theorem root_of_isTrivial (h : sets.isTrivial = true) (key : Key kind) : sets.root key = key := by
  refine root_of_none ?_
  rw [Std.ExtTreeMap.isEmpty_iff.mp h]
  rfl

/-! ## Operations -/

/-- A new pointer changes what is found at its key only. -/
theorem getElem?_insert_cases {key target other : Key kind} {parent : Option (Key kind)}
    (h : (sets.parents.insert key target)[other]? = parent) :
    (other = key ∧ parent = some target) ∨ (other ≠ key ∧ sets.parents[other]? = parent) := by
  rw [Std.ExtTreeMap.getElem?_insert] at h
  split at h
  · next heq => exact Or.inl ⟨(Std.LawfulEqOrd.eq_of_compare heq).symm, h.symm⟩
  · next hne =>
      refine Or.inr ⟨?_, h⟩
      rintro rfl
      exact hne Std.ReflCmp.compare_self

/-- A pointer to a smaller key keeps the pointers leading down. -/
theorem Ordered.insert (hordered : sets.Ordered) {key target : Key kind}
    (hlt : target.index < key.index) : Ordered ⟨sets.parents.insert key target⟩ := by
  intro other parent hparent
  rcases getElem?_insert_cases hparent with ⟨rfl, heq⟩ | ⟨-, hold⟩
  · cases heq
    exact hlt
  · exact hordered hold

/-- A pointer from a key to one with the same representative. -/
theorem isRoot_insert {r : Key kind → Key kind} {key target : Key kind}
    (top : ∀ {other}, other ≠ key → sets.parents[other]? = none → r other = other)
    (child : ∀ {other parent}, other ≠ key → sets.parents[other]? = some parent →
      r other = r parent) (hr : r key = r target) :
    IsRoot ⟨sets.parents.insert key target⟩ r where
  top {other} hparent := by
    rcases getElem?_insert_cases hparent with ⟨-, heq⟩ | ⟨hne, hold⟩
    · cases heq
    · exact top hne hold
  child {other parent} hparent := by
    rcases getElem?_insert_cases hparent with ⟨rfl, heq⟩ | ⟨hne, hold⟩
    · cases heq
      exact hr
    · exact child hne hold

/-- To repoint the keys of a path keeps all representatives. -/
theorem isRoot_compress {r : Key kind → Key kind} {target : Key kind} (htarget : r target = target)
    (hle : ∀ key, (r key).index ≤ key.index) {steps : Nat} {key : Key kind}
    {sets : DisjointSets kind} (hordered : sets.Ordered) (h : sets.IsRoot r)
    (hkey : r key = target) :
    Ordered ⟨compress target steps key sets.parents⟩ ∧
      IsRoot ⟨compress target steps key sets.parents⟩ r := by
  induction steps generalizing key sets with
  | zero => exact ⟨hordered, h⟩
  | succ steps ih =>
      rw [compress]
      by_cases heq : key = target
      · rw [if_pos heq]
        exact ⟨hordered, h⟩
      · rw [if_neg heq]
        cases hparent : sets.parents[key]? with
        | none => exact ⟨hordered, h⟩
        | some parent =>
            have hlt : target.index < key.index := by
              refine Nat.lt_of_le_of_ne (hkey ▸ hle key) fun hindex => heq ?_
              obtain ⟨k⟩ := key
              obtain ⟨t⟩ := target
              cases hindex
              rfl
            exact ih (hordered.insert hlt)
              (isRoot_insert (fun _ => h.top) (fun _ => h.child) (hkey.trans htarget.symm))
              ((h.child hparent).symm.trans hkey)

/-- To look a key up answers with its representative. -/
theorem find_fst (sets : DisjointSets kind) (key : Key kind) : (sets.find key).1 = sets.root key :=
  rfl

/-- Looking a representative up changes none. -/
theorem root_find (hordered : sets.Ordered) (key : Key kind) :
    (sets.find key).2.Ordered ∧ ∀ other, (sets.find key).2.root other = sets.root other := by
  have hnew : Ordered ⟨compress (sets.root key) key.index key sets.parents⟩ ∧
      IsRoot ⟨compress (sets.root key) key.index key sets.parents⟩ sets.root :=
    isRoot_compress (hordered.root_root key) hordered.root_le hordered hordered.isRoot rfl
  exact ⟨hnew.1, hnew.2.root_eq hnew.1⟩

/-- The lesser of two keys is one of them. -/
theorem least_cases (a b : Key kind) :
    (a.least b = a ∧ a.index ≤ b.index) ∨ (a.least b = b ∧ b.index ≤ a.index) := by
  rw [Key.least]
  by_cases h : a ≤ b
  · rw [if_pos h]
    exact Or.inl ⟨rfl, h⟩
  · rw [if_neg h]
    exact Or.inr ⟨rfl, Nat.le_of_lt (Nat.lt_of_not_le h)⟩

/-- Points one representative at a smaller one. -/
theorem root_link (hordered : sets.Ordered) {target child : Key kind}
    (htarget : sets.root target = target) (hchild : sets.root child = child)
    (hlt : target.index < child.index) :
    Ordered ⟨sets.parents.insert child target⟩ ∧
      ∀ key, root ⟨sets.parents.insert child target⟩ key =
        if sets.root key = child then target else sets.root key := by
  have hne : target ≠ child := by
    rintro rfl
    exact Nat.lt_irrefl _ hlt
  let r : Key kind → Key kind := fun key =>
    if sets.root key = child then target else sets.root key
  have hfits : IsRoot ⟨sets.parents.insert child target⟩ r := by
    apply isRoot_insert
    · intro other hother hnone
      have hroot := root_of_none hnone
      simp only [r, hroot, if_neg hother]
    · intro other parent _ hparent
      simp only [r, hordered.isRoot.child hparent]
    · simp only [r, htarget, hchild, if_neg hne, if_true]
  exact ⟨hordered.insert hlt, hfits.root_eq (hordered.insert hlt)⟩

/-- **UNIONS**: the members of the two sets get the smaller of the two
    representatives, and all other keys keep theirs. -/
theorem root_union (hordered : sets.Ordered) (a b : Key kind) :
    (sets.union a b).2.Ordered ∧ ∀ key, (sets.union a b).2.root key =
      if sets.root key = sets.root a ∨ sets.root key = sets.root b then
        (sets.root a).least (sets.root b)
      else sets.root key := by
  obtain ⟨hfirst, hsame₁⟩ := root_find hordered a
  obtain ⟨hsecond, hsame₂⟩ := root_find hfirst b
  -- the lookups change pointers, but no representative
  let final := ((sets.find a).2.find b).2
  have hsame : ∀ key, final.root key = sets.root key :=
    fun key => (hsame₂ key).trans (hsame₁ key)
  have hunion : (sets.union a b).2 =
      if sets.root a ≤ sets.root b then
        (if sets.root a = sets.root b then final
          else ⟨final.parents.insert (sets.root b) (sets.root a)⟩)
      else
        (if sets.root b = sets.root a then final
          else ⟨final.parents.insert (sets.root a) (sets.root b)⟩) := by
    simp only [union, find_fst, hsame₁]
    by_cases hle : sets.root a ≤ sets.root b
    · simp only [if_pos hle]
      rfl
    · simp only [if_neg hle]
      rfl
  have hfix : ∀ key, final.root (sets.root key) = sets.root key :=
    fun key => (hsame _).trans (hordered.root_root key)
  rw [hunion, Key.least]
  by_cases heq : sets.root a = sets.root b
  · -- both keys are in one set already
    have hle : sets.root a ≤ sets.root b := heq ▸ Nat.le_refl _
    rw [if_pos hle, if_pos heq]
    refine ⟨hsecond, fun key => ?_⟩
    rw [hsame]
    split
    · next h => exact h.elim id fun h => h.trans heq.symm
    · rfl
  -- the larger representative gets a pointer to the smaller one
  · by_cases hle : sets.root a ≤ sets.root b
    · have hlt : (sets.root a).index < (sets.root b).index :=
        Nat.lt_of_le_of_ne hle fun h => heq (by
          rcases ha : sets.root a with ⟨i⟩
          rcases hb : sets.root b with ⟨j⟩
          rw [ha, hb] at h
          exact congrArg Key.mk h)
      rw [if_pos hle, if_neg heq]
      have hlink := root_link hsecond (hfix a) (hfix b) hlt
      refine ⟨hlink.1, fun key => ?_⟩
      rw [hlink.2 key]
      show (if final.root key = sets.root b then sets.root a else final.root key) = _
      rw [hsame]
      by_cases hb : sets.root key = sets.root b
      · rw [if_pos hb, if_pos (Or.inr hb), if_pos hle]
      · rw [if_neg hb]
        by_cases ha : sets.root key = sets.root a
        · rw [if_pos (Or.inl ha), if_pos hle, ha]
        · rw [if_neg (not_or.mpr ⟨ha, hb⟩)]
    · have hlt : (sets.root b).index < (sets.root a).index := Nat.lt_of_not_le hle
      rw [if_neg hle, if_neg (Ne.symm heq)]
      have hlink := root_link hsecond (hfix b) (hfix a) hlt
      refine ⟨hlink.1, fun key => ?_⟩
      rw [hlink.2 key]
      show (if final.root key = sets.root a then sets.root b else final.root key) = _
      rw [hsame]
      by_cases ha : sets.root key = sets.root a
      · rw [if_pos ha, if_pos (Or.inl ha), if_neg hle]
      · rw [if_neg ha]
        by_cases hb : sets.root key = sets.root b
        · rw [if_pos (Or.inr hb), if_neg hle, hb]
        · rw [if_neg (not_or.mpr ⟨ha, hb⟩)]

/-- Keys of one set stay in one set. -/
theorem root_union_mono (hordered : sets.Ordered) (a b : Key kind) {x y : Key kind}
    (h : sets.root x = sets.root y) : (sets.union a b).2.root x = (sets.union a b).2.root y := by
  rw [(root_union hordered a b).2 x, (root_union hordered a b).2 y, h]

/-- The two keys of a union are in one set. -/
theorem root_union_self (hordered : sets.Ordered) (a b : Key kind) :
    (sets.union a b).2.root a = (sets.union a b).2.root b := by
  rw [(root_union hordered a b).2 a, (root_union hordered a b).2 b, if_pos (Or.inl rfl),
    if_pos (Or.inr rfl)]

end DisjointSets

end DecafBackend
