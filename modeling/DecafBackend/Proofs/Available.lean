import DecafBackend.Optimize.Available
import DecafBackend.Proofs.Checked
import DecafBackend.Proofs.Commands
import DecafBackend.Proofs.DisjointSets
import DecafBackend.Proofs.Maps

/-! # What the operations on facts leave available

    The three indices of the facts agree: a term that is available is among the
    readers of its operands, and a location that holds a term has that term as
    its entry.  So a write finds all that it makes stale.

    * `Has`, `Holds` — the facts as relations
    * `Indexed` — the agreement of the indices
    * `holds_kill`, `killGlobals_ok` — what is left after a write or a call
    * `holds_register` — what a save adds
    * `meet_spec`, `Joined` — what is left where paths meet -/

namespace DecafBackend.Available

/-- A term is available. -/
def Has (facts : Available) (term : Term) : Prop := term ∈ facts.holders

/-- A location holds an available term. -/
def Holds (facts : Available) (term : Term) (loc : Loc) : Prop :=
  ∃ holders, facts.holders[term]? = some holders ∧ loc ∈ holders

/-- The indices agree, and name the first `size` locations only. -/
structure Indexed (size : Nat) (facts : Available) : Prop where
  reads : ∀ {term : Term} {loc : Loc}, facts.Has term → loc ∈ term.operands →
    ∃ terms, facts.readers[loc]? = some terms ∧ term ∈ terms
  holds : ∀ {term : Term} {loc : Loc}, facts.Holds term loc → facts.held[loc]? = some term
  readers : ∀ {loc : Loc}, loc ∈ facts.readers → loc.index < size
  held : ∀ {loc : Loc}, loc ∈ facts.held → loc.index < size

variable {facts : Available} {term other : Term} {loc x : Loc} {size : Nat}

/-- A term that is held is available. -/
theorem Holds.has (h : facts.Holds term loc) : facts.Has term := by
  obtain ⟨holders, hholders, -⟩ := h
  exact Maps.mem_of_getElem? hholders

theorem mem_holdersOf : loc ∈ facts.holdersOf term ↔ facts.Holds term loc := by
  rw [holdersOf, Holds]
  cases facts.holders[term]? with
  | none => simp
  | some holders => simp [Std.ExtTreeSet.mem_toList]

/-- Without facts no term is available. -/
theorem not_has_empty : ¬ Has {} term := Std.ExtTreeMap.not_mem_empty

/-- The empty indexes fit the empty facts. -/
theorem Indexed.empty : Indexed size {} where
  reads h _ := absurd h not_has_empty
  holds h := absurd h.has not_has_empty
  readers h := absurd h Std.ExtTreeMap.not_mem_empty
  held h := absurd h Std.ExtTreeMap.not_mem_empty

/-- The operands of an available term are locations of the body. -/
theorem Indexed.operand_lt (h : facts.Indexed size) (hhas : facts.Has term)
    (hloc : loc ∈ term.operands) : loc.index < size := by
  obtain ⟨terms, hterms, -⟩ := h.reads hhas hloc
  exact h.readers (Maps.mem_of_getElem? hterms)

/-- Holders are locations of the body. -/
theorem Indexed.holder_lt (h : facts.Indexed size) (hholds : facts.Holds term loc) :
    loc.index < size := h.held (Maps.mem_of_getElem? (h.holds hholds))

/-! ## Taking facts away -/

/-- To drop a reader leaves the other readers of every location. -/
theorem dropReader_getElem? {readers : Std.ExtTreeMap Loc (Std.ExtTreeSet Term)} {x : Loc}
    {terms : Std.ExtTreeSet Term} (hterms : readers[x]? = some terms) (hmem : other ∈ terms)
    (hne : other ≠ term) (loc : Loc) :
    ∃ terms, (dropReader readers term loc)[x]? = some terms ∧ other ∈ terms := by
  rw [dropReader]
  by_cases hx : loc = x
  · subst hx
    -- another reader stays, so the location keeps its entry
    have hrest : other ∈ terms.erase term := Maps.set_mem_erase.mpr ⟨hne, hmem⟩
    have hnonempty : (terms.erase term).isEmpty = false := by
      rw [Std.ExtTreeSet.isEmpty_eq_false_iff]
      intro hempty
      rw [hempty] at hrest
      exact Std.ExtTreeSet.not_mem_empty hrest
    simp only [hterms, hnonempty, Bool.false_eq_true, if_false]
    exact ⟨_, Std.ExtTreeMap.getElem?_insert_self, hrest⟩
  · refine ⟨terms, ?_, hmem⟩
    cases hloc : readers[loc]? with
    | none => exact hterms
    | some _ =>
        dsimp only
        split
        · rw [Maps.getElem?_erase, if_neg hx, hterms]
        · rw [Maps.getElem?_insert, if_neg hx, hterms]

/-- To drop a reader adds no location. -/
theorem mem_of_mem_dropReader {readers : Std.ExtTreeMap Loc (Std.ExtTreeSet Term)} {x loc : Loc}
    (h : x ∈ dropReader readers term loc) : x ∈ readers := by
  rw [dropReader] at h
  cases hloc : readers[loc]? with
  | none => rw [hloc] at h; exact h
  | some _ =>
      rw [hloc] at h
      dsimp only at h
      split at h
      · exact Std.ExtTreeMap.mem_of_mem_erase h
      · rcases Maps.mem_insert.mp h with rfl | h
        · exact Maps.mem_of_getElem? hloc
        · exact h

/-- To drop a term from its operands leaves the other readers. -/
theorem dropReaders_getElem? {locs : List Loc} {readers : Std.ExtTreeMap Loc (Std.ExtTreeSet Term)}
    {x : Loc} {terms : Std.ExtTreeSet Term} (hterms : readers[x]? = some terms)
    (hmem : other ∈ terms) (hne : other ≠ term) :
    ∃ terms, (locs.foldl (dropReader · term) readers)[x]? = some terms ∧ other ∈ terms := by
  induction locs generalizing readers terms with
  | nil => exact ⟨terms, hterms, hmem⟩
  | cons first rest ih =>
      obtain ⟨terms', hterms', hmem'⟩ := dropReader_getElem? hterms hmem hne first
      exact ih hterms' hmem'

/-- To drop a term from its operands adds no location. -/
theorem mem_of_mem_dropReaders {locs : List Loc}
    {readers : Std.ExtTreeMap Loc (Std.ExtTreeSet Term)} {x : Loc}
    (h : x ∈ locs.foldl (dropReader · term) readers) : x ∈ readers := by
  induction locs generalizing readers with
  | nil => exact h
  | cons first rest ih => exact mem_of_mem_dropReader (ih h)

/-- Forgetting a term takes its holders away, and no other term's. -/
theorem forget_holders : (facts.forget term).holders[other]? =
    if term = other then none else facts.holders[other]? := by
  rw [forget, Maps.getElem?_erase]

/-- A forgotten term is not available, and all others are as before. -/
theorem has_forget : (facts.forget term).Has other ↔ facts.Has other ∧ other ≠ term := by
  rw [Has, Maps.mem_iff, forget_holders, Has, Maps.mem_iff]
  by_cases h : term = other
  · rw [if_pos h]
    exact ⟨nofun, fun hne => absurd h.symm hne.2⟩
  · rw [if_neg h]
    exact ⟨fun hhas => ⟨hhas, Ne.symm h⟩, And.left⟩

/-- A forgotten term is not held, and all others are as before. -/
theorem holds_forget : (facts.forget term).Holds other x ↔ facts.Holds other x ∧ other ≠ term := by
  rw [Holds, forget_holders, Holds]
  by_cases h : term = other
  · rw [if_pos h]
    exact ⟨nofun, fun hne => absurd h.symm hne.2⟩
  · rw [if_neg h]
    exact ⟨fun hholds => ⟨hholds, Ne.symm h⟩, And.left⟩

/-- The indexes fit after a term was forgotten. -/
theorem Indexed.forget (h : facts.Indexed size) (term : Term) :
    (facts.forget term).Indexed size where
  reads {other x} hhas hx := by
    obtain ⟨hhas, hne⟩ := has_forget.mp hhas
    obtain ⟨terms, hterms, hmem⟩ := h.reads hhas hx
    exact dropReaders_getElem? hterms hmem hne
  holds {other x} hholds := by
    obtain ⟨hholds, hne⟩ := holds_forget.mp hholds
    have hheld := h.holds hholds
    rw [Available.forget]
    dsimp only
    rw [Maps.getElem?_foldl_erase, hheld]
    -- a location holds one term, so none of the holders taken away is this one
    rintro y hy rfl
    have hheld' := h.holds (mem_holdersOf.mp hy)
    rw [hheld] at hheld'
    exact hne (Option.some.inj hheld')
  readers hx := h.readers (mem_of_mem_dropReaders hx)
  held hx := h.held (Maps.mem_of_mem_foldl_erase hx)

/-- A location that holds nothing is left as it is. -/
theorem unbind_eq (hnone : facts.held[loc]? = none) : facts.unbind loc = facts := by
  rw [unbind, hnone]

/-- A term stays available when a holder of it changes its value. -/
theorem has_unbind : (facts.unbind loc).Has other ↔ facts.Has other := by
  cases hheld : facts.held[loc]? with
  | none => rw [unbind_eq hheld]
  | some term =>
      simp only [unbind, hheld]
      cases hholders : facts.holders[term]? with
      | none => exact Iff.rfl
      | some holders =>
          rw [Has, Maps.mem_insert, Has]
          refine ⟨fun h => h.elim (fun heq => ?_) id, Or.inr⟩
          rw [heq]
          exact Maps.mem_of_getElem? hholders

/-- A location that changes its value holds nothing any more. -/
theorem holds_unbind (h : facts.Indexed size) :
    (facts.unbind loc).Holds other x ↔ facts.Holds other x ∧ x ≠ loc := by
  cases hheld : facts.held[loc]? with
  | none =>
      rw [unbind_eq hheld]
      refine ⟨fun hholds => ⟨hholds, ?_⟩, And.left⟩
      rintro rfl
      rw [h.holds hholds] at hheld
      cases hheld
  | some term =>
      -- the location can be a holder of `term` only
      have honly : ∀ {e}, facts.Holds e loc → e = term := by
        intro e he
        rw [h.holds he] at hheld
        exact Option.some.inj hheld
      simp only [unbind, hheld]
      cases hholders : facts.holders[term]? with
      | none =>
          refine ⟨fun hholds => ⟨hholds, ?_⟩, And.left⟩
          rintro rfl
          have hterm : facts.Holds term x := honly hholds ▸ hholds
          obtain ⟨holders, hother, -⟩ := hterm
          rw [hholders] at hother
          cases hother
      | some holders =>
          dsimp only [Holds]
          rw [Maps.getElem?_insert]
          by_cases heq : term = other
          · subst heq
            rw [if_pos rfl, hholders]
            constructor
            · rintro ⟨_, heq, hmem⟩
              cases heq
              obtain ⟨hne, hmem⟩ := Maps.set_mem_erase.mp hmem
              exact ⟨⟨holders, rfl, hmem⟩, hne⟩
            · rintro ⟨⟨_, heq, hmem⟩, hne⟩
              cases heq
              exact ⟨_, rfl, Maps.set_mem_erase.mpr ⟨hne, hmem⟩⟩
          · rw [if_neg heq]
            refine ⟨fun hholds => ⟨hholds, ?_⟩, And.left⟩
            rintro rfl
            exact heq (honly hholds).symm

/-- A location that changes its value has no entry any more. -/
theorem unbind_held : (facts.unbind loc).held[x]? =
    if loc = x then none else facts.held[x]? := by
  cases hheld : facts.held[loc]? with
  | none =>
      rw [unbind_eq hheld]
      split
      · next heq => rw [← heq, hheld]
      · rfl
  | some term =>
      simp only [unbind, hheld]
      rw [Maps.getElem?_erase]

theorem unbind_readers : (facts.unbind loc).readers = facts.readers := by
  rw [unbind]
  split <;> rfl

/-- The indexes fit after a location has changed its value. -/
theorem Indexed.unbind (h : facts.Indexed size) (loc : Loc) : (facts.unbind loc).Indexed size where
  reads hhas hx := by
    rw [unbind_readers]
    exact h.reads (has_unbind.mp hhas) hx
  holds hholds := by
    obtain ⟨hholds, hne⟩ := (holds_unbind h).mp hholds
    rw [unbind_held, if_neg (Ne.symm hne)]
    exact h.holds hholds
  readers hx := by
    rw [unbind_readers] at hx
    exact h.readers hx
  held hx := by
    obtain ⟨term, hterm⟩ := Maps.mem_iff.mp hx
    rw [unbind_held] at hterm
    split at hterm
    · cases hterm
    · exact h.held (Maps.mem_of_getElem? hterm)

/-- Forgetting terms, one after the other. -/
theorem forgetAll {terms : List Term} (h : facts.Indexed size) :
    (terms.foldl forget facts).Indexed size ∧
      (∀ {e}, (terms.foldl forget facts).Has e → facts.Has e ∧ e ∉ terms) ∧
      ∀ {e x}, (terms.foldl forget facts).Holds e x → facts.Holds e x := by
  induction terms generalizing facts with
  | nil => exact ⟨h, fun hhas => ⟨hhas, List.not_mem_nil⟩, fun hholds => hholds⟩
  | cons first rest ih =>
      obtain ⟨hindexed, hhas, hholds⟩ := ih (h.forget first)
      refine ⟨hindexed, ?_, fun hx => (holds_forget.mp (hholds hx)).1⟩
      intro e he
      obtain ⟨he, hrest⟩ := hhas he
      obtain ⟨he, hne⟩ := has_forget.mp he
      exact ⟨he, fun hmem => (List.mem_cons.mp hmem).elim hne hrest⟩

/-- The indexes fit after a write. -/
theorem Indexed.kill (h : facts.Indexed size) (loc : Loc) : (facts.kill loc).Indexed size :=
  (forgetAll h).1.unbind loc

/-- After a write no available term reads the location. -/
theorem has_kill (h : facts.Indexed size) (hhas : (facts.kill loc).Has term) :
    facts.Has term ∧ loc ∉ term.operands := by
  rw [Available.kill] at hhas
  obtain ⟨hhas, hnot⟩ := (forgetAll h).2.1 (has_unbind.mp hhas)
  refine ⟨hhas, fun hloc => hnot ?_⟩
  obtain ⟨terms, hterms, hmem⟩ := h.reads hhas hloc
  rw [hterms]
  exact Std.ExtTreeSet.mem_toList.mpr hmem

/-- What is held after a write was held before, and not by the location. -/
theorem holds_kill (h : facts.Indexed size) (hholds : (facts.kill loc).Holds term x) :
    facts.Holds term x ∧ x ≠ loc := by
  rw [Available.kill] at hholds
  obtain ⟨hholds, hne⟩ := (holds_unbind (forgetAll h).1).mp hholds
  exact ⟨(forgetAll h).2.2 hholds, hne⟩

/-- Writes to many locations, one after the other. -/
theorem killAll {locs : List Loc} (h : facts.Indexed size) :
    (locs.foldl kill facts).Indexed size ∧
      (∀ {e}, (locs.foldl kill facts).Has e → facts.Has e ∧ ∀ x ∈ locs, x ∉ e.operands) ∧
      ∀ {e x}, (locs.foldl kill facts).Holds e x → facts.Holds e x ∧ x ∉ locs := by
  induction locs generalizing facts with
  | nil => exact ⟨h, fun hhas => ⟨hhas, nofun⟩, fun hholds => ⟨hholds, List.not_mem_nil⟩⟩
  | cons first rest ih =>
      obtain ⟨hindexed, hhas, hholds⟩ := ih (h.kill first)
      refine ⟨hindexed, ?_, ?_⟩
      · intro e he
        obtain ⟨he, hrest⟩ := hhas he
        obtain ⟨he, hfirst⟩ := has_kill h he
        refine ⟨he, fun x hx => ?_⟩
        rcases List.mem_cons.mp hx with rfl | hx
        · exact hfirst
        · exact hrest x hx
      · intro e x hx
        obtain ⟨hx, hrest⟩ := hholds hx
        obtain ⟨hx, hne⟩ := holds_kill h hx
        exact ⟨hx, fun hmem => (List.mem_cons.mp hmem).elim hne hrest⟩

/-- What is left after a call: nothing that reads a field, and no field holds
    anything. -/
structure Spared (body : Body) (facts left : Available) : Prop where
  has : ∀ {term : Term}, left.Has term → facts.Has term ∧
    ∀ x ∈ term.operands, body.isGlobal x = .ok false
  holds : ∀ {term : Term} {x : Loc}, left.Holds term x → facts.Holds term x ∧
    body.isGlobal x = .ok false

/-- The locations that facts are known about have an entry in an index. -/
theorem mem_known : x ∈ ((facts.readers.keys ++ facts.held.keys).foldl (·.insert ·)
    (∅ : Std.ExtTreeSet Loc)).toList ↔ x ∈ facts.readers ∨ x ∈ facts.held := by
  rw [Std.ExtTreeSet.mem_toList, Maps.set_mem_foldl_insert, List.mem_append,
    Std.ExtTreeMap.mem_keys, Std.ExtTreeMap.mem_keys]
  exact ⟨fun h => h.resolve_left Std.ExtTreeSet.not_mem_empty, Or.inr⟩

/-- A call takes away what fields have to do with, and it can always be found out. -/
theorem killGlobals_ok {body : Body} (h : facts.Indexed body.locations.size) :
    ∃ left, facts.killGlobals body = .ok left ∧ left.Indexed body.locations.size ∧
      Spared body facts left := by
  -- a location that is in no index has nothing to lose
  let known : Std.ExtTreeSet Loc := (facts.readers.keys ++ facts.held.keys).foldl (·.insert ·) ∅
  have hknown : ∀ {x : Loc}, x ∈ known.toList ↔ x ∈ facts.readers ∨ x ∈ facts.held := mem_known
  obtain ⟨isField, hlook, hfilter⟩ : ∃ isField : Loc → Bool,
      (∀ x ∈ known.toList, body.isGlobal x = .ok (isField x)) ∧
        known.toList.filterM body.isGlobal = .ok (known.toList.filter isField) :=
    Checked.filterM_ok fun x hx => Body.isGlobal_ok ((hknown.mp hx).elim h.readers h.held)
  let fields := known.toList.filter isField
  -- whatever is left was spared by each of the fields
  have hleft : (fields.foldl Available.kill facts).Indexed body.locations.size ∧
      (∀ {e}, (fields.foldl Available.kill facts).Has e →
        facts.Has e ∧ ∀ x ∈ fields, x ∉ e.operands) ∧
      ∀ {e x}, (fields.foldl Available.kill facts).Holds e x →
        facts.Holds e x ∧ x ∉ fields := killAll h
  obtain ⟨hindexed, hhas, hholds⟩ := hleft
  have hspared : ∀ {x : Loc}, x ∈ facts.readers ∨ x ∈ facts.held →
      x ∉ fields → body.isGlobal x = .ok false := by
    intro x hx hnot
    rw [hlook x (hknown.mpr hx)]
    cases hfield : isField x with
    | false => rfl
    | true => exact absurd (List.mem_filter.mpr ⟨hknown.mpr hx, hfield⟩) hnot
  refine ⟨fields.foldl Available.kill facts, ?_, hindexed, ?_, ?_⟩
  · show (known.toList.filterM body.isGlobal >>= _) = _
    rw [hfilter]
    rfl
  · intro term hterm
    obtain ⟨hterm, hnot⟩ := hhas hterm
    refine ⟨hterm, fun x hx => ?_⟩
    obtain ⟨terms, hterms, -⟩ := h.reads hterm hx
    exact hspared (Or.inl (Maps.mem_of_getElem? hterms)) fun hmem => hnot x hmem hx
  · intro term x hx
    obtain ⟨hx, hnot⟩ := hholds hx
    exact ⟨hx, hspared (Or.inr (Maps.mem_of_getElem? (h.holds hx))) hnot⟩

/-! ## Adding facts -/

/-- To add readers keeps the readers that were there. -/
theorem addReaders_getElem? {locs : List Loc} {readers : Std.ExtTreeMap Loc (Std.ExtTreeSet Term)}
    {x : Loc} {terms : Std.ExtTreeSet Term} (hterms : readers[x]? = some terms)
    (hmem : other ∈ terms) :
    ∃ terms, (locs.foldl (addReader · term) readers)[x]? = some terms ∧ other ∈ terms := by
  induction locs generalizing readers terms with
  | nil => exact ⟨terms, hterms, hmem⟩
  | cons first rest ih =>
      rw [List.foldl_cons]
      by_cases hx : first = x
      · subst hx
        have hadded : (addReader readers term first)[first]? = some (terms.insert term) := by
          rw [addReader, hterms]
          exact Std.ExtTreeMap.getElem?_insert_self
        exact ih hadded (Maps.set_mem_insert.mpr (Or.inr hmem))
      · refine ih ?_ hmem
        rw [addReader, Maps.getElem?_insert_ne (Ne.symm hx), hterms]

/-- An operand is read by the term that was added. -/
theorem addReaders_mem {locs : List Loc} {readers : Std.ExtTreeMap Loc (Std.ExtTreeSet Term)}
    {x : Loc} (hx : x ∈ locs) :
    ∃ terms, (locs.foldl (addReader · term) readers)[x]? = some terms ∧ term ∈ terms := by
  induction locs generalizing readers with
  | nil => cases hx
  | cons first rest ih =>
      rcases List.mem_cons.mp hx with rfl | hx
      · have hadded : (addReader readers term x)[x]? =
            some ((readers[x]?.getD ∅).insert term) := Std.ExtTreeMap.getElem?_insert_self
        rw [List.foldl_cons]
        exact addReaders_getElem? hadded (Maps.set_mem_insert.mpr (Or.inl rfl))
      · exact ih hx

/-- To add readers adds operands only. -/
theorem mem_of_mem_addReaders {locs : List Loc}
    {readers : Std.ExtTreeMap Loc (Std.ExtTreeSet Term)} {x : Loc}
    (h : x ∈ locs.foldl (addReader · term) readers) : x ∈ readers ∨ x ∈ locs := by
  induction locs generalizing readers with
  | nil => exact Or.inl h
  | cons first rest ih =>
      rcases ih h with h | h
      · rcases Maps.mem_insert.mp h with rfl | h
        · exact Or.inr List.mem_cons_self
        · exact Or.inl h
      · exact Or.inr (List.mem_cons_of_mem _ h)

/-- A term is made available beside the others. -/
theorem has_makeAvailable :
    (facts.makeAvailable term).Has other ↔ other = term ∨ facts.Has other := Maps.mem_insert

/-- To make a term available gives it no holder. -/
theorem holds_makeAvailable : (facts.makeAvailable term).Holds other x ↔ facts.Holds other x := by
  rw [Holds, makeAvailable, Maps.getElem?_insert, Holds]
  by_cases heq : term = other
  · subst heq
    rw [if_pos rfl]
    cases facts.holders[term]? with
    | none =>
        constructor
        · rintro ⟨_, heq, hmem⟩
          cases heq
          exact absurd hmem Std.ExtTreeSet.not_mem_empty
        · rintro ⟨_, heq, -⟩
          cases heq
    | some holders => exact Iff.rfl
  · rw [if_neg heq]

/-- The indexes fit when a term is made available. -/
theorem Indexed.makeAvailable (h : facts.Indexed size)
    (hterm : ∀ x ∈ term.operands, x.index < size) :
    (facts.makeAvailable term).Indexed size where
  reads {other x} hhas hx := by
    rcases has_makeAvailable.mp hhas with rfl | hhas
    · exact addReaders_mem hx
    · obtain ⟨terms, hterms, hmem⟩ := h.reads hhas hx
      exact addReaders_getElem? hterms hmem
  holds hholds := h.holds (holds_makeAvailable.mp hholds)
  readers hx := (mem_of_mem_addReaders hx).elim h.readers (hterm _)
  held hx := h.held hx

/-- What a register does, written as one update. -/
theorem register_eq : facts.register term loc =
    { (facts.unbind loc).makeAvailable term with
      held := ((facts.unbind loc).makeAvailable term).held.insert loc term
      holders := ((facts.unbind loc).makeAvailable term).holders.insert term
        ((((facts.unbind loc).makeAvailable term).holders[term]?.getD ∅).insert loc) } := rfl

/-- A holder makes its term available, and no other one. -/
theorem has_register (hhas : (facts.register term loc).Has other) :
    other = term ∨ facts.Has other := by
  rw [register_eq] at hhas
  rcases Maps.mem_insert.mp hhas with rfl | hhas
  · exact Or.inl rfl
  · rcases has_makeAvailable.mp hhas with rfl | hhas
    · exact Or.inl rfl
    · exact Or.inr (has_unbind.mp hhas)

/-- A holder holds its term, and nothing that it held before. -/
theorem holds_register (h : facts.Indexed size)
    (hholds : (facts.register term loc).Holds other x) :
    (other = term ∧ x = loc) ∨ (facts.Holds other x ∧ x ≠ loc) := by
  rw [register_eq, Holds, Maps.getElem?_insert] at hholds
  by_cases heq : term = other
  · subst heq
    rw [if_pos rfl] at hholds
    obtain ⟨_, heq, hmem⟩ := hholds
    cases heq
    rcases Maps.set_mem_insert.mp hmem with rfl | hmem
    · exact Or.inl ⟨rfl, rfl⟩
    · right
      rw [← holds_unbind h, ← holds_makeAvailable]
      cases hholders : ((facts.unbind loc).makeAvailable term).holders[term]? with
      | none =>
          rw [hholders] at hmem
          exact absurd hmem Std.ExtTreeSet.not_mem_empty
      | some holders =>
          rw [hholders] at hmem
          exact ⟨holders, hholders, hmem⟩
  -- holders of other terms are those that the location was taken from
  · rw [if_neg heq] at hholds
    right
    rw [← holds_unbind h, ← holds_makeAvailable]
    exact hholds

/-- The indexes fit with a holder more. -/
theorem Indexed.register (h : facts.Indexed size) (hterm : ∀ x ∈ term.operands, x.index < size)
    (hloc : loc.index < size) : (facts.register term loc).Indexed size where
  reads {other x} hhas hx := by
    refine ((h.unbind loc).makeAvailable hterm).reads (has_makeAvailable.mpr ?_) hx
    exact (has_register hhas).imp id has_unbind.mpr
  holds {other x} hholds := by
    rw [register_eq, Maps.getElem?_insert]
    rcases holds_register h hholds with ⟨rfl, rfl⟩ | ⟨hholds, hne⟩
    · rw [if_pos rfl]
    · rw [if_neg (Ne.symm hne)]
      exact (h.unbind loc).holds ((holds_unbind h).mpr ⟨hholds, hne⟩)
  readers hx := ((h.unbind loc).makeAvailable hterm).readers hx
  held hx := by
    rcases Maps.mem_insert.mp hx with rfl | hx
    · exact hloc
    · exact (h.unbind loc).held hx

/-- Facts about one term, added to others. -/
theorem keep_spec {holders : List Loc} (h : facts.Indexed size)
    (hterm : ∀ x ∈ term.operands, x.index < size) (hholders : ∀ x ∈ holders, x.index < size) :
    (facts.keep term holders).Indexed size ∧
      (∀ {e}, (facts.keep term holders).Has e → e = term ∨ facts.Has e) ∧
      ∀ {e x}, (facts.keep term holders).Holds e x →
        (e = term ∧ x ∈ holders) ∨ facts.Holds e x := by
  rw [keep]
  -- by induction on the holders: each one may take a location away from another term
  refine List.foldlRecOn holders _ (motive := fun (out : Available) => out.Indexed size ∧
      (∀ {e}, out.Has e → e = term ∨ facts.Has e) ∧
      ∀ {e x}, out.Holds e x → (e = term ∧ x ∈ holders) ∨ facts.Holds e x) ?_ ?_
  · exact ⟨h.makeAvailable hterm, has_makeAvailable.mp,
      fun hholds => Or.inr (holds_makeAvailable.mp hholds)⟩
  · rintro out ⟨hindexed, hhas, hholds⟩ loc hloc
    refine ⟨hindexed.register hterm (hholders loc hloc), ?_, ?_⟩
    · intro e he
      rcases has_register he with rfl | he
      · exact Or.inl rfl
      · exact hhas he
    · intro e x hx
      rcases holds_register hindexed hx with ⟨rfl, rfl⟩ | ⟨hx, -⟩
      · exact Or.inl ⟨rfl, hloc⟩
      · exact hholds hx

/-! ## Meeting paths -/

/-- What two paths have in common is on both. -/
theorem mem_common {mine theirs : Std.ExtTreeSet Loc} :
    x ∈ common mine theirs ↔ x ∈ mine ∧ x ∈ theirs := by
  rw [common, List.mem_filter, Std.ExtTreeSet.mem_toList, Std.ExtTreeSet.contains_iff_mem]

/-- All operands of an available term are locations of the body. -/
theorem Indexed.operands_lt (h : facts.Indexed size) (hhas : facts.Has term) :
    ∀ x ∈ term.operands, x.index < size := fun _ hx => h.operand_lt hhas hx

/-- Where two paths meet, a term is available or held if it is so on both. -/
theorem meet_spec {facts other : Available} (h : facts.Indexed size) :
    (facts.meet other).Indexed size ∧
      (∀ {e}, (facts.meet other).Has e → facts.Has e ∧ other.Has e) ∧
      ∀ {e x}, (facts.meet other).Holds e x → facts.Holds e x ∧ other.Holds e x := by
  rw [meet]
  -- by induction on the terms of one path: a term is kept if the other path has it too
  refine List.foldlRecOn facts.holders.toList _
    (motive := fun (out : Available) => out.Indexed size ∧
      (∀ {e}, out.Has e → facts.Has e ∧ other.Has e) ∧
      ∀ {e x}, out.Holds e x → facts.Holds e x ∧ other.Holds e x) ?_ ?_
  · exact ⟨Indexed.empty, fun he => absurd he not_has_empty,
      fun hx => absurd hx.has not_has_empty⟩
  · rintro out ⟨hindexed, hhas, hholds⟩ ⟨term, mine⟩ hmem
    have hmine := Std.ExtTreeMap.mem_toList_iff_getElem?_eq_some.mp hmem
    have hterm : facts.Has term := Maps.mem_of_getElem? hmine
    dsimp only
    cases htheirs : other.holders[term]? with
    | none => exact ⟨hindexed, hhas, hholds⟩
    | some theirs =>
        have hshared : ∀ x ∈ common mine theirs, facts.Holds term x ∧ other.Holds term x := by
          intro x hx
          obtain ⟨hx₁, hx₂⟩ := mem_common.mp hx
          exact ⟨⟨mine, hmine, hx₁⟩, theirs, htheirs, hx₂⟩
        obtain ⟨hindexed', hhas', hholds'⟩ := keep_spec hindexed (h.operands_lt hterm)
          fun x hx => h.holder_lt (hshared x hx).1
        refine ⟨hindexed', ?_, ?_⟩
        · intro e he
          rcases hhas' he with rfl | he
          · exact ⟨hterm, Maps.mem_of_getElem? htheirs⟩
          · exact hhas he
        · intro e x hx
          rcases hholds' hx with ⟨rfl, hin⟩ | hold
          · exact hshared x hin
          · exact hholds hold

/-- Sets that merge others. -/
def Coarser (fine coarse : DisjointSets .loc) : Prop :=
  coarse.Ordered ∧ ∀ {x y : Loc}, fine.root x = fine.root y → coarse.root x = coarse.root y

/-- Sets are as coarse as themselves. -/
theorem Coarser.refl {sets : DisjointSets .loc} (h : sets.Ordered) : Coarser sets sets :=
  ⟨h, fun hxy => hxy⟩

/-- To be coarser goes from one to the next. -/
theorem Coarser.trans {a b c : DisjointSets .loc} (h₁ : Coarser a b) (h₂ : Coarser b c) :
    Coarser a c := ⟨h₂.1, fun hxy => h₂.2 (h₁.2 hxy)⟩

/-- A union makes sets coarser. -/
theorem coarser_union {sets : DisjointSets .loc} (h : sets.Ordered) (a b : Loc) :
    Coarser sets (sets.union a b).2 :=
  ⟨(DisjointSets.root_union h a b).1, DisjointSets.root_union_mono h a b⟩

/-- Every key is related to the representative of its set. -/
def Unified (related : Loc → Loc → Prop) (sets : DisjointSets .loc) : Prop :=
  ∀ x, sets.root x ≠ x → related x (sets.root x)

/-- Singletons unify nothing. -/
theorem unified_empty {related : Loc → Loc → Prop} : Unified related {} :=
  fun x hx => absurd (DisjointSets.root_empty x) hx

/-- A union of related keys keeps every key related to its representative. -/
theorem Unified.union {related : Loc → Loc → Prop} {sets : DisjointSets .loc}
    (symm : ∀ x y, related x y → related y x)
    (trans : ∀ x y z, related x y → related y z → related x z)
    (hordered : sets.Ordered) (h : Unified related sets) {a b : Loc} (hab : related a b) :
    Unified related (sets.union a b).2 := by
  -- each representative is related to any key that one of the two keys is related to
  have hfrom : ∀ {x y}, related x y → related (sets.root x) y := by
    intro x y hxy
    by_cases hx : sets.root x = x
    · rw [hx]; exact hxy
    · exact trans _ _ _ (symm _ _ (h x hx)) hxy
  have hroots : related (sets.root a) (sets.root b) :=
    symm _ _ (hfrom (symm _ _ (hfrom hab)))
  -- the new representative is that of one of the keys, and both are related to all of them
  intro x hx
  rw [(DisjointSets.root_union hordered a b).2 x] at hx ⊢
  by_cases hcase : sets.root x = sets.root a ∨ sets.root x = sets.root b
  · rw [if_pos hcase] at hx ⊢
    have hall : ∀ r, (r = sets.root a ∨ r = sets.root b) → related r (sets.root a) ∧
        related r (sets.root b) := by
      rintro r (rfl | rfl)
      · exact ⟨trans _ _ _ hroots (symm _ _ hroots), hroots⟩
      · exact ⟨symm _ _ hroots, trans _ _ _ (symm _ _ hroots) hroots⟩
    have htarget : related (sets.root x) ((sets.root a).least (sets.root b)) := by
      rcases DisjointSets.least_cases (sets.root a) (sets.root b) with ⟨hleast, -⟩ | ⟨hleast, -⟩
      · rw [hleast]; exact (hall _ hcase).1
      · rw [hleast]; exact (hall _ hcase).2
    by_cases hroot : sets.root x = x
    · rw [hroot] at htarget
      exact htarget
    · exact trans _ _ _ (h x hroot) htarget
  · rw [if_neg hcase] at hx ⊢
    exact h x hx

/-- What a block may assume when several paths enter it: every term is
    available on all of them, and every holder is in one set with a holder on
    each of them. -/
structure Joined (paths : List Available) (sets : DisjointSets .loc) (facts : Available) :
    Prop where
  has : ∀ {term : Term}, facts.Has term → ∀ path ∈ paths, path.Has term
  holds : ∀ {term : Term} {loc : Loc}, facts.Holds term loc → ∀ path ∈ paths,
    ∃ holder, path.Holds term holder ∧ sets.root holder = sets.root loc
  origin : ∀ {term : Term} {loc : Loc}, facts.Holds term loc →
    ∃ path ∈ paths, path.Holds term loc

/-- What was joined over finer sets is joined over coarser ones. -/
theorem Joined.coarsen {paths : List Available} {fine coarse : DisjointSets .loc}
    (h : Joined paths fine facts) (hcoarser : Coarser fine coarse) : Joined paths coarse facts where
  has := h.has
  holds hholds path hpath := by
    obtain ⟨holder, hholder, hroot⟩ := h.holds hholds path hpath
    exact ⟨holder, hholder, hcoarser.2 hroot⟩
  origin := h.origin

/-- What a merge of two paths comes to. -/
structure Merged (size : Nat) (related : Loc → Loc → Prop) (paths : List Available)
    (sets : DisjointSets .loc) (result : DisjointSets .loc × Available) : Prop where
  coarser : Coarser sets result.1
  unified : Unified related result.1
  indexed : result.2.Indexed size
  joined : Joined paths result.1 result.2

/-- A term that all paths have is kept with holders that all paths agree on. -/
theorem Merged.keep {related : Loc → Loc → Prop} {paths : List Available}
    {sets : DisjointSets .loc} {state : DisjointSets .loc × Available} {holders : List Loc}
    (h : Merged size related paths sets state) (hterm : ∀ path ∈ paths, path.Has term)
    (hoperands : ∀ x ∈ term.operands, x.index < size)
    (hholders : ∀ x ∈ holders, x.index < size ∧ (∃ path ∈ paths, path.Holds term x) ∧
      ∀ path ∈ paths, ∃ holder, path.Holds term holder ∧ state.1.root holder = state.1.root x) :
    Merged size related paths sets (state.1, state.2.keep term holders) := by
  obtain ⟨hindexed, hhas, hholds⟩ :=
    keep_spec h.indexed hoperands fun x hx => (hholders x hx).1
  refine ⟨h.coarser, h.unified, hindexed, ?_, ?_, ?_⟩
  · intro e he path hpath
    rcases hhas he with rfl | he
    · exact hterm path hpath
    · exact h.joined.has he path hpath
  · intro e x hx path hpath
    rcases hholds hx with ⟨rfl, hmem⟩ | hold
    · exact (hholders x hmem).2.2 path hpath
    · exact h.joined.holds hold path hpath
  · intro e x hx
    rcases hholds hx with ⟨rfl, hmem⟩ | hold
    · exact (hholders x hmem).2.1
    · exact h.joined.origin hold

/-- Where paths meet, temporaries of one term may become one, and nothing else is
    unified. -/
theorem meetMerging_spec {related : Loc → Loc → Prop} {isTemp : Loc → Bool}
    {sets : DisjointSets .loc} {facts other : Available}
    (symm : ∀ x y, related x y → related y x)
    (trans : ∀ x y z, related x y → related y z → related x z)
    (hordered : sets.Ordered) (hunified : Unified related sets) (h : facts.Indexed size)
    (hother : other.Indexed size)
    (hrelated : ∀ {e a b}, facts.Holds e a → other.Holds e b → isTemp a = true →
      isTemp b = true → related a b) :
    Merged size related [facts, other] sets (meetMerging isTemp sets facts other) := by
  have hpair : ∀ {path}, path ∈ [facts, other] → path = facts ∨ path = other := by
    intro path hpath
    simpa using hpath
  rw [meetMerging]
  refine List.foldlRecOn facts.holders.toList _
    (motive := fun (state : DisjointSets .loc × Available) =>
      Merged size related [facts, other] sets state) ?_ ?_
  · exact ⟨Coarser.refl hordered, hunified, Indexed.empty, fun he => absurd he not_has_empty,
      fun hx => absurd hx.has not_has_empty, fun hx => absurd hx.has not_has_empty⟩
  · rintro ⟨aliases, out⟩ hstate ⟨term, mine⟩ hmem
    have hmine := Std.ExtTreeMap.mem_toList_iff_getElem?_eq_some.mp hmem
    have hterm : facts.Has term := Maps.mem_of_getElem? hmine
    dsimp only
    cases htheirs : other.holders[term]? with
    | none => exact hstate
    | some theirs =>
        have hhas : ∀ path ∈ [facts, other], path.Has term := by
          intro path hpath
          rcases hpair hpath with rfl | rfl
          · exact hterm
          · exact Maps.mem_of_getElem? htheirs
        -- the locations that hold the term on both paths
        have hcommon : Merged size related [facts, other] sets
            (aliases, out.keep term (common mine theirs)) := by
          refine hstate.keep hhas (h.operands_lt hterm) fun x hx => ?_
          obtain ⟨hx₁, hx₂⟩ := mem_common.mp hx
          have hin : ∀ path ∈ [facts, other], path.Holds term x := by
            intro path hpath
            rcases hpair hpath with rfl | rfl
            · exact ⟨mine, hmine, hx₁⟩
            · exact ⟨theirs, htheirs, hx₂⟩
          exact ⟨h.holder_lt (hin facts (by simp)), ⟨facts, by simp, hin facts (by simp)⟩,
            fun path hpath => ⟨x, hin path hpath, rfl⟩⟩
        dsimp only
        split
        · next a b hnone ha hb =>
            -- the temporaries of the two paths become one
            have hfirst : facts.Holds term a := ⟨mine, hmine,
              Std.ExtTreeSet.mem_toList.mp (List.mem_of_find?_eq_some ha)⟩
            have hsecond : other.Holds term b := ⟨theirs, htheirs,
              Std.ExtTreeSet.mem_toList.mp (List.mem_of_find?_eq_some hb)⟩
            have hab := hrelated hfirst hsecond (List.find?_some ha) (List.find?_some hb)
            have hunion := coarser_union hstate.coarser.1 a b
            have hself := DisjointSets.root_union_self hstate.coarser.1 a b
            have hmerged : Merged size related [facts, other] sets ((aliases.union a b).2, out) :=
              ⟨hstate.coarser.trans hunion,
                hstate.unified.union symm trans hstate.coarser.1 hab, hstate.indexed,
                hstate.joined.coarsen hunion⟩
            refine hmerged.keep hhas (h.operands_lt hterm) fun x hx => ?_
            rw [List.mem_singleton] at hx
            -- the least of the two stands for both, whichever it is
            rcases DisjointSets.least_cases a b with ⟨hleast, -⟩ | ⟨hleast, -⟩
            · rw [hx, hleast]
              refine ⟨h.holder_lt hfirst, ⟨facts, by simp, hfirst⟩, fun path hpath => ?_⟩
              rcases hpair hpath with rfl | rfl
              · exact ⟨a, hfirst, rfl⟩
              · exact ⟨b, hsecond, hself.symm⟩
            · rw [hx, hleast]
              refine ⟨hother.holder_lt hsecond, ⟨other, by simp, hsecond⟩, fun path hpath => ?_⟩
              rcases hpair hpath with rfl | rfl
              · exact ⟨a, hfirst, hself⟩
              · exact ⟨b, hsecond, rfl⟩
        · exact hcommon

end DecafBackend.Available
