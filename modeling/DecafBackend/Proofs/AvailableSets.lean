import DecafBackend.Proofs.Available

/-! # Available terms as sets of facts

    Facts say that a term is available, or that a location holds it.  The three
    indices say the same facts, so consistent states are the same when they say
    the same facts, and what each operation takes away and adds is said exactly.

    * `Consistent`, `eq_of_facts` — the indices agree, and facts tell states apart
    * `has_kill_iff`, `holds_kill_iff` — what a write leaves
    * `killGlobals_spec` — what a call leaves
    * `has_register_iff`, `holds_register_iff` — what a save adds
    * `Shared`, `meet_iff` — what two paths have in common -/

namespace DecafBackend.Available

variable {facts other : Available} {term e : Term} {loc x : Loc} {size : Nat}

/-- A term is indexed as a reader of a location. -/
def Reads (readers : Std.ExtTreeMap Loc (Std.ExtTreeSet Term)) (loc : Loc) (term : Term) : Prop :=
  ∃ terms, readers[loc]? = some terms ∧ term ∈ terms

/-- Every location in the index has a reader. -/
def NoneEmpty (readers : Std.ExtTreeMap Loc (Std.ExtTreeSet Term)) : Prop :=
  ∀ (loc : Loc) (terms : Std.ExtTreeSet Term), readers[loc]? = some terms → ∃ term, term ∈ terms

/-- The three indices say the same. -/
structure Consistent (size : Nat) (facts : Available) : Prop where
  indexed : facts.Indexed size
  reads : ∀ {loc : Loc} {term : Term}, Reads facts.readers loc term →
    facts.Has term ∧ loc ∈ term.operands
  nonempty : NoneEmpty facts.readers
  held : ∀ {loc : Loc} {term : Term}, facts.held[loc]? = some term → facts.Holds term loc

/-- The empty facts are consistent. -/
theorem Consistent.empty : Consistent size {} where
  indexed := Indexed.empty
  reads h := by
    obtain ⟨terms, hterms, -⟩ := h
    cases hterms
  nonempty _ _ h := by cases h
  held h := by cases h

/-- A location is read by the available terms that it is an operand of. -/
theorem Consistent.reads_iff (h : facts.Consistent size) :
    Reads facts.readers loc term ↔ facts.Has term ∧ loc ∈ term.operands :=
  ⟨h.reads, fun hterm => h.indexed.reads hterm.1 hterm.2⟩

/-- A location holds one term. -/
theorem Consistent.unique (h : facts.Consistent size) (hx : facts.Holds term x)
    (hy : facts.Holds e x) : term = e := by
  have hheld := h.indexed.holds hx
  rw [h.indexed.holds hy] at hheld
  exact (Option.some.inj hheld).symm

/-- What a location is looked up for is what it holds. -/
theorem Consistent.held_iff (h : facts.Consistent size) :
    facts.held[loc]? = some term ↔ facts.Holds term loc := ⟨h.held, h.indexed.holds⟩

/-- **FACTS TELL STATES APART**. -/
theorem eq_of_facts {size' : Nat} (h : facts.Consistent size) (hother : other.Consistent size')
    (hhas : ∀ term, facts.Has term ↔ other.Has term)
    (hholds : ∀ term loc, facts.Holds term loc ↔ other.Holds term loc) : facts = other := by
  -- each index can be read off the facts, so equal facts have equal indexes
  have hheld : facts.held = other.held := by
    refine Std.ExtTreeMap.ext_getElem? fun loc => Option.ext fun term => ?_
    rw [h.held_iff, hother.held_iff, hholds]
  have hholders : facts.holders = other.holders := by
    refine Std.ExtTreeMap.ext_getElem? fun term => ?_
    have hiff := hhas term
    rw [Has, Has, Maps.mem_iff, Maps.mem_iff] at hiff
    cases hmine : facts.holders[term]? with
    | none =>
        cases htheirs : other.holders[term]? with
        | none => rfl
        | some theirs =>
            obtain ⟨mine, hmine'⟩ := hiff.mpr ⟨theirs, htheirs⟩
            rw [hmine] at hmine'
            cases hmine'
    | some mine =>
        obtain ⟨theirs, htheirs⟩ := hiff.mp ⟨mine, hmine⟩
        rw [htheirs]
        refine congrArg some (Std.ExtTreeSet.ext_mem fun loc => ?_)
        have hloc := hholds term loc
        rw [Holds, Holds, hmine, htheirs] at hloc
        simpa using hloc
  have hreaders : facts.readers = other.readers := by
    refine Std.ExtTreeMap.ext_getElem? fun loc => ?_
    have hiff : ∀ term, Reads facts.readers loc term ↔ Reads other.readers loc term := by
      intro term
      rw [h.reads_iff, hother.reads_iff, hhas]
    -- an entry without readers is not kept, so an entry is there for a reader
    cases hmine : facts.readers[loc]? with
    | none =>
        cases htheirs : other.readers[loc]? with
        | none => rfl
        | some theirs =>
            obtain ⟨term, hterm⟩ := hother.nonempty loc theirs htheirs
            obtain ⟨mine, hmine', -⟩ := (hiff term).mpr ⟨theirs, htheirs, hterm⟩
            rw [hmine] at hmine'
            cases hmine'
    | some mine =>
        obtain ⟨term, hterm⟩ := h.nonempty loc mine hmine
        obtain ⟨theirs, htheirs, -⟩ := (hiff term).mp ⟨mine, hmine, hterm⟩
        rw [htheirs]
        refine congrArg some (Std.ExtTreeSet.ext_mem fun term => ?_)
        have hterm := hiff term
        rw [Reads, Reads, hmine, htheirs] at hterm
        simpa using hterm
  obtain ⟨holders, held, readers⟩ := facts
  obtain ⟨holders', held', readers'⟩ := other
  dsimp only at hheld hholders hreaders
  rw [hheld, hholders, hreaders]

/-! ## Readers -/

section

variable {readers : Std.ExtTreeMap Loc (Std.ExtTreeSet Term)}

/-- To drop a reader takes away one pair, and nothing else. -/
theorem reads_dropReader :
    Reads (dropReader readers term loc) x e ↔ Reads readers x e ∧ ¬ (x = loc ∧ e = term) := by
  constructor
  · intro h
    rw [dropReader] at h
    cases hloc : readers[loc]? with
    | none =>
        rw [hloc] at h
        refine ⟨h, ?_⟩
        rintro ⟨rfl, -⟩
        obtain ⟨terms, hterms, -⟩ := h
        rw [hloc] at hterms
        cases hterms
    | some terms =>
        rw [hloc] at h
        obtain ⟨left, hleft, hmem⟩ := h
        dsimp only at hleft
        by_cases hx : loc = x
        · subst hx
          -- the entry goes with its last reader, and otherwise loses just this one
          split at hleft
          · rw [Maps.getElem?_erase, if_pos rfl] at hleft
            cases hleft
          · rw [Maps.getElem?_insert, if_pos rfl] at hleft
            cases hleft
            obtain ⟨hne, hmem⟩ := Maps.set_mem_erase.mp hmem
            exact ⟨⟨terms, hloc, hmem⟩, fun hboth => hne hboth.2⟩
        · have hkept : readers[x]? = some left := by
            split at hleft
            · rwa [Maps.getElem?_erase, if_neg hx] at hleft
            · rwa [Maps.getElem?_insert, if_neg hx] at hleft
          exact ⟨⟨left, hkept, hmem⟩, fun hboth => hx hboth.1.symm⟩
  · rintro ⟨⟨terms, hterms, hmem⟩, hnot⟩
    by_cases he : e = term
    · subst he
      have hx : loc ≠ x := fun heq => hnot ⟨heq.symm, rfl⟩
      refine ⟨terms, ?_, hmem⟩
      rw [dropReader]
      cases readers[loc]? with
      | none => exact hterms
      | some found =>
          dsimp only
          split
          · rw [Maps.getElem?_erase, if_neg hx, hterms]
          · rw [Maps.getElem?_insert, if_neg hx, hterms]
    · exact dropReader_getElem? hterms hmem he loc

/-- To drop a reader leaves no entry empty. -/
theorem NoneEmpty.dropReader (h : NoneEmpty readers) : NoneEmpty (dropReader readers term loc) := by
  intro x terms hterms
  rw [Available.dropReader] at hterms
  cases hloc : readers[loc]? with
  | none =>
      rw [hloc] at hterms
      exact h x terms hterms
  | some found =>
      rw [hloc] at hterms
      dsimp only at hterms
      split at hterms
      · rw [Maps.getElem?_erase] at hterms
        split at hterms
        · cases hterms
        · exact h x terms hterms
      · next hnonempty =>
          rw [Maps.getElem?_insert] at hterms
          split at hterms
          · cases hterms
            refine Classical.byContradiction fun hnone => ?_
            refine hnonempty (Std.ExtTreeSet.isEmpty_iff.mpr ?_)
            refine Std.ExtTreeSet.ext_mem fun term => ⟨fun hmem => ?_, fun hmem => ?_⟩
            · exact absurd ⟨term, hmem⟩ hnone
            · exact absurd hmem Std.ExtTreeSet.not_mem_empty
          · exact h x terms hterms

/-- To drop a term from its operands takes away those pairs only. -/
theorem reads_dropReaders {locs : List Loc} :
    Reads (locs.foldl (Available.dropReader · term) readers) x e ↔
      Reads readers x e ∧ ¬ (x ∈ locs ∧ e = term) := by
  induction locs generalizing readers with
  | nil => simp
  | cons first rest ih =>
      rw [List.foldl_cons, ih, reads_dropReader, List.mem_cons]
      constructor
      · rintro ⟨⟨hreads, hfirst⟩, hrest⟩
        refine ⟨hreads, ?_⟩
        rintro ⟨hmem | hmem, rfl⟩
        · exact hfirst ⟨hmem, rfl⟩
        · exact hrest ⟨hmem, rfl⟩
      · rintro ⟨hreads, hnot⟩
        exact ⟨⟨hreads, fun hfirst => hnot ⟨Or.inl hfirst.1, hfirst.2⟩⟩,
          fun hrest => hnot ⟨Or.inr hrest.1, hrest.2⟩⟩

/-- To drop readers leaves no entry empty. -/
theorem NoneEmpty.dropReaders {locs : List Loc} (h : NoneEmpty readers) :
    NoneEmpty (locs.foldl (Available.dropReader · term) readers) := by
  induction locs generalizing readers with
  | nil => exact h
  | cons first rest ih => exact ih h.dropReader

/-- To add a reader adds one pair, and nothing else. -/
theorem reads_addReader :
    Reads (addReader readers term loc) x e ↔ Reads readers x e ∨ (x = loc ∧ e = term) := by
  rw [Reads, addReader, Maps.getElem?_insert]
  by_cases hx : loc = x
  · subst hx
    rw [if_pos rfl]
    constructor
    · rintro ⟨terms, hterms, hmem⟩
      cases hterms
      rcases Maps.set_mem_insert.mp hmem with rfl | hmem
      · exact Or.inr ⟨rfl, rfl⟩
      · left
        cases hloc : readers[loc]? with
        | none =>
            rw [hloc] at hmem
            exact absurd hmem Std.ExtTreeSet.not_mem_empty
        | some found =>
            rw [hloc] at hmem
            exact ⟨found, hloc, hmem⟩
    · rintro (⟨terms, hterms, hmem⟩ | ⟨-, rfl⟩)
      · refine ⟨_, rfl, Maps.set_mem_insert.mpr (Or.inr ?_)⟩
        rw [hterms]
        exact hmem
      · exact ⟨_, rfl, Maps.set_mem_insert.mpr (Or.inl rfl)⟩
  · rw [if_neg hx]
    exact ⟨Or.inl, fun h => h.elim id fun hboth => absurd hboth.1.symm hx⟩

/-- To add a reader leaves no entry empty. -/
theorem NoneEmpty.addReader (h : NoneEmpty readers) : NoneEmpty (addReader readers term loc) := by
  intro x terms hterms
  rw [Available.addReader, Maps.getElem?_insert] at hterms
  split at hterms
  · cases hterms
    exact ⟨term, Maps.set_mem_insert.mpr (Or.inl rfl)⟩
  · exact h x terms hterms

/-- To add a term to its operands adds those pairs only. -/
theorem reads_addReaders {locs : List Loc} :
    Reads (locs.foldl (Available.addReader · term) readers) x e ↔
      Reads readers x e ∨ (x ∈ locs ∧ e = term) := by
  induction locs generalizing readers with
  | nil => simp
  | cons first rest ih =>
      rw [List.foldl_cons, ih, reads_addReader, List.mem_cons]
      constructor
      · rintro ((hreads | ⟨rfl, rfl⟩) | ⟨hmem, rfl⟩)
        · exact Or.inl hreads
        · exact Or.inr ⟨Or.inl rfl, rfl⟩
        · exact Or.inr ⟨Or.inr hmem, rfl⟩
      · rintro (hreads | ⟨hmem | hmem, rfl⟩)
        · exact Or.inl (Or.inl hreads)
        · exact Or.inl (Or.inr ⟨hmem, rfl⟩)
        · exact Or.inr ⟨hmem, rfl⟩

/-- To add readers leaves no entry empty. -/
theorem NoneEmpty.addReaders {locs : List Loc} (h : NoneEmpty readers) :
    NoneEmpty (locs.foldl (Available.addReader · term) readers) := by
  induction locs generalizing readers with
  | nil => exact h
  | cons first rest ih => exact ih h.addReader

end

/-! ## Taking facts away -/

/-- Facts stay consistent when a term is forgotten. -/
theorem Consistent.forget (h : facts.Consistent size) (term : Term) :
    (facts.forget term).Consistent size where
  indexed := h.indexed.forget term
  reads {loc e} hreads := by
    obtain ⟨hreads, hnot⟩ := reads_dropReaders.mp hreads
    obtain ⟨hhas, hloc⟩ := h.reads hreads
    refine ⟨has_forget.mpr ⟨hhas, ?_⟩, hloc⟩
    rintro rfl
    exact hnot ⟨hloc, rfl⟩
  nonempty := h.nonempty.dropReaders
  held {loc e} hheld := by
    have hold : facts.held[loc]? = some e := Maps.getElem?_of_foldl_erase hheld
    refine holds_forget.mpr ⟨h.held hold, ?_⟩
    rintro rfl
    -- the location was taken away with the others that hold the term
    exact Maps.ne_of_foldl_erase hheld loc (mem_holdersOf.mpr (h.held hold)) rfl

/-- Facts stay consistent when a location changes its value. -/
theorem Consistent.unbind (h : facts.Consistent size) (loc : Loc) :
    (facts.unbind loc).Consistent size where
  indexed := h.indexed.unbind loc
  reads hreads := by
    rw [unbind_readers] at hreads
    exact ⟨has_unbind.mpr (h.reads hreads).1, (h.reads hreads).2⟩
  nonempty := by
    rw [unbind_readers]
    exact h.nonempty
  held {x e} hheld := by
    rw [unbind_held] at hheld
    split at hheld
    · cases hheld
    · next hne => exact (holds_unbind h.indexed).mpr ⟨h.held hheld, Ne.symm hne⟩

/-- Facts stay consistent when terms are forgotten. -/
theorem Consistent.forgetAll {terms : List Term} (h : facts.Consistent size) :
    (terms.foldl Available.forget facts).Consistent size := by
  induction terms generalizing facts with
  | nil => exact h
  | cons first rest ih => exact ih (h.forget first)

/-- Forgotten terms are not available, and all others are as before. -/
theorem has_forgetAll {terms : List Term} :
    (terms.foldl forget facts).Has e ↔ facts.Has e ∧ e ∉ terms := by
  induction terms generalizing facts with
  | nil => simp
  | cons first rest ih => rw [List.foldl_cons, ih, has_forget, List.mem_cons, not_or, and_assoc]

/-- Forgotten terms are not held, and all others are as before. -/
theorem holds_forgetAll {terms : List Term} :
    (terms.foldl forget facts).Holds e x ↔ facts.Holds e x ∧ e ∉ terms := by
  induction terms generalizing facts with
  | nil => simp
  | cons first rest ih => rw [List.foldl_cons, ih, holds_forget, List.mem_cons, not_or, and_assoc]

/-- Facts stay consistent over a write. -/
theorem Consistent.kill (h : facts.Consistent size) (loc : Loc) :
    (facts.kill loc).Consistent size :=
  h.forgetAll.unbind loc

/-- The terms that a write takes away are those that read the location. -/
theorem Consistent.mem_killed (h : facts.Consistent size) (hhas : facts.Has e) :
    (e ∈ match facts.readers[loc]? with
      | some terms => terms.toList
      | none => []) ↔ loc ∈ e.operands := by
  -- the readers of the location are its terms, whether there is an entry or not
  have hiff := @Consistent.reads_iff facts e loc size h
  rw [Reads] at hiff
  cases hreaders : facts.readers[loc]? with
  | none =>
      rw [hreaders] at hiff
      simp only [List.not_mem_nil, false_iff]
      intro hloc
      obtain ⟨terms, hterms, -⟩ := hiff.mpr ⟨hhas, hloc⟩
      cases hterms
  | some terms =>
      rw [hreaders] at hiff
      simp only [Std.ExtTreeSet.mem_toList]
      constructor
      · exact fun hmem => (hiff.mp ⟨terms, rfl, hmem⟩).2
      · intro hloc
        obtain ⟨found, hfound, hmem⟩ := hiff.mpr ⟨hhas, hloc⟩
        cases hfound
        exact hmem

/-- **WHAT A WRITE LEAVES**: terms that do not read the location. -/
theorem has_kill_iff (h : facts.Consistent size) :
    (facts.kill loc).Has e ↔ facts.Has e ∧ loc ∉ e.operands := by
  rw [Available.kill, has_unbind, has_forgetAll]
  exact and_congr_right fun hhas => not_congr (h.mem_killed hhas)

/-- A write leaves other holders of terms that do not read the location. -/
theorem holds_kill_iff (h : facts.Consistent size) :
    (facts.kill loc).Holds e x ↔ facts.Holds e x ∧ loc ∉ e.operands ∧ x ≠ loc := by
  rw [Available.kill, holds_unbind h.forgetAll.indexed, holds_forgetAll, and_assoc]
  exact and_congr_right fun hholds => and_congr_left fun _ => not_congr (h.mem_killed hholds.has)

/-- Facts stay consistent over writes. -/
theorem Consistent.killAll {locs : List Loc} (h : facts.Consistent size) :
    (locs.foldl Available.kill facts).Consistent size := by
  induction locs generalizing facts with
  | nil => exact h
  | cons first rest ih => exact ih (h.kill first)

/-- Terms that read none of the locations stay available. -/
theorem has_killAll {locs : List Loc} (h : facts.Consistent size) :
    (locs.foldl kill facts).Has e ↔ facts.Has e ∧ ∀ loc ∈ locs, loc ∉ e.operands := by
  induction locs generalizing facts with
  | nil => simp
  | cons first rest ih =>
      rw [List.foldl_cons, ih (h.kill first), has_kill_iff h, List.forall_mem_cons, and_assoc]

/-- Holders that are none of the locations stay, if their terms do. -/
theorem holds_killAll {locs : List Loc} (h : facts.Consistent size) :
    (locs.foldl kill facts).Holds e x ↔
      facts.Holds e x ∧ ∀ loc ∈ locs, loc ∉ e.operands ∧ x ≠ loc := by
  induction locs generalizing facts with
  | nil => simp
  | cons first rest ih =>
      rw [List.foldl_cons, ih (h.kill first), holds_kill_iff h, List.forall_mem_cons]
      simp only [and_assoc]

/-- **WHAT A CALL LEAVES**: terms that read no field, and their holders that
    are no fields. -/
theorem killGlobals_spec {body : Body} (h : facts.Consistent body.locations.size) :
    ∃ left, facts.killGlobals body = .ok left ∧ left.Consistent body.locations.size ∧
      (∀ e, left.Has e ↔ facts.Has e ∧ ∀ loc ∈ e.operands, body.isGlobal loc = .ok false) ∧
      ∀ e x, left.Holds e x ↔ facts.Holds e x ∧
        (∀ loc ∈ e.operands, body.isGlobal loc = .ok false) ∧ body.isGlobal x = .ok false := by
  obtain ⟨left, hleft, -, hspared⟩ := killGlobals_ok h.indexed
  refine ⟨left, hleft, ?_⟩
  rw [Available.killGlobals] at hleft
  obtain ⟨fields, hfields, hleft⟩ := Checked.bind_eq_ok hleft
  cases hleft
  -- only fields were taken away
  have hfield : ∀ loc ∈ fields, body.isGlobal loc = .ok true := by
    obtain ⟨isField, hlook, rfl⟩ := Checked.filterM_eq_ok hfields
    intro loc hloc
    obtain ⟨hmem, htrue⟩ := List.mem_filter.mp hloc
    rw [hlook loc hmem, htrue]
  have hnot : ∀ {loc}, body.isGlobal loc = .ok false → loc ∉ fields := by
    intro loc hlocal hmem
    rw [hfield loc hmem] at hlocal
    cases hlocal
  -- nothing more is left than was spared, and nothing is taken that was spared
  refine ⟨h.killAll, fun e => ⟨hspared.has, ?_⟩, fun e x => ⟨fun hx => ?_, ?_⟩⟩
  · rintro ⟨hhas, hlocal⟩
    exact (has_killAll h).mpr ⟨hhas, fun loc hloc hmem => hnot (hlocal loc hmem) hloc⟩
  · exact ⟨(hspared.holds hx).1, (hspared.has hx.has).2, (hspared.holds hx).2⟩
  · rintro ⟨hholds, hlocal, hx⟩
    refine (holds_killAll h).mpr ⟨hholds, fun loc hloc => ⟨fun hmem => ?_, ?_⟩⟩
    · exact hnot (hlocal loc hmem) hloc
    · rintro rfl
      exact hnot hx hloc

/-! ## Adding facts -/

/-- Facts stay consistent when a term is made available. -/
theorem Consistent.makeAvailable (h : facts.Consistent size)
    (hterm : ∀ x ∈ term.operands, x.index < size) : (facts.makeAvailable term).Consistent size where
  indexed := h.indexed.makeAvailable hterm
  reads {loc e} hreads := by
    rcases reads_addReaders.mp hreads with hreads | ⟨hloc, rfl⟩
    · exact ⟨has_makeAvailable.mpr (Or.inr (h.reads hreads).1), (h.reads hreads).2⟩
    · exact ⟨has_makeAvailable.mpr (Or.inl rfl), hloc⟩
  nonempty := h.nonempty.addReaders
  held hheld := holds_makeAvailable.mpr (h.held hheld)

/-- With a holder, its term is available beside the others. -/
theorem has_register_iff : (facts.register term loc).Has e ↔ e = term ∨ facts.Has e := by
  refine ⟨has_register, fun hor => ?_⟩
  rw [register_eq]
  refine Maps.mem_insert.mpr ?_
  rcases hor with rfl | hhas
  · exact Or.inl rfl
  · exact Or.inr (has_makeAvailable.mpr (Or.inr (has_unbind.mpr hhas)))

/-- **WHAT A SAVE ADDS**: the location holds the term, and no other one. -/
theorem holds_register_iff (h : facts.Indexed size) :
    (facts.register term loc).Holds e x ↔
      (e = term ∧ x = loc) ∨ (facts.Holds e x ∧ x ≠ loc) := by
  refine ⟨holds_register h, fun hor => ?_⟩
  have hbefore : (e = term ∧ x = loc) ∨
      ((facts.unbind loc).makeAvailable term).Holds e x := by
    refine hor.imp id fun hold => ?_
    rw [holds_makeAvailable, holds_unbind h]
    exact hold
  rw [register_eq, Holds, Maps.getElem?_insert]
  by_cases heq : term = e
  · subst heq
    rw [if_pos rfl]
    refine ⟨_, rfl, Maps.set_mem_insert.mpr ?_⟩
    rcases hbefore with ⟨-, rfl⟩ | ⟨holders, hholders, hmem⟩
    · exact Or.inl rfl
    · right
      rw [hholders]
      exact hmem
  · rw [if_neg heq]
    exact hbefore.resolve_left fun hboth => heq hboth.1.symm

/-- Facts stay consistent with a holder more. -/
theorem Consistent.register (h : facts.Consistent size)
    (hterm : ∀ x ∈ term.operands, x.index < size) (hloc : loc.index < size) :
    (facts.register term loc).Consistent size where
  indexed := h.indexed.register hterm hloc
  reads {x e} hreads := by
    obtain ⟨hhas, hx⟩ := ((h.unbind loc).makeAvailable hterm).reads hreads
    refine ⟨has_register_iff.mpr ?_, hx⟩
    exact (has_makeAvailable.mp hhas).imp id has_unbind.mp
  nonempty := ((h.unbind loc).makeAvailable hterm).nonempty
  held {x e} hheld := by
    rw [register_eq, Maps.getElem?_insert] at hheld
    refine (holds_register_iff h.indexed).mpr ?_
    split at hheld
    · next heq =>
        cases hheld
        exact Or.inl ⟨rfl, heq.symm⟩
    · next hne => exact Or.inr ⟨h.held ((unbind_held.trans (if_neg hne)) ▸ hheld), Ne.symm hne⟩

/-- Some locations hold a term, and no other ones. -/
theorem keep_iff {holders : List Loc} (h : facts.Consistent size)
    (hterm : ∀ x ∈ term.operands, x.index < size) (hholders : ∀ x ∈ holders, x.index < size) :
    (facts.keep term holders).Consistent size ∧
      (∀ e, (facts.keep term holders).Has e ↔ e = term ∨ facts.Has e) ∧
      ∀ e x, (facts.keep term holders).Holds e x ↔
        (e = term ∧ x ∈ holders) ∨ (facts.Holds e x ∧ x ∉ holders) := by
  have hfold : ∀ {out : Available}, out.Consistent size → (∀ x ∈ holders, x.index < size) →
      (holders.foldl (·.register term ·) out).Consistent size ∧
      (∀ e, (holders.foldl (·.register term ·) out).Has e ↔
        (e = term ∧ holders ≠ []) ∨ out.Has e) ∧
      ∀ e x, (holders.foldl (·.register term ·) out).Holds e x ↔
        (e = term ∧ x ∈ holders) ∨ (out.Holds e x ∧ x ∉ holders) := by
    -- by induction on the holders, for any facts to start from
    clear hholders
    induction holders with
    | nil => exact fun hout _ => ⟨hout, by simp, by simp⟩
    | cons first rest ih =>
        intro out hout hlt
        obtain ⟨hc, hhas, hholds⟩ := ih (hout.register hterm (hlt first List.mem_cons_self))
          fun x hx => hlt x (List.mem_cons_of_mem _ hx)
        refine ⟨hc, fun e => ?_, fun e x => ?_⟩
        · rw [List.foldl_cons, hhas, has_register_iff]
          by_cases he : e = term <;> simp [he]
        · rw [List.foldl_cons, hholds, holds_register_iff hout.indexed, List.mem_cons]
          by_cases hx : x ∈ rest
          · simp [hx]
          · by_cases hfirst : x = first
            · subst hfirst
              simp [hx]
            · simp [hx, hfirst]
  obtain ⟨hc, hhas, hholds⟩ := hfold (h.makeAvailable hterm) hholders
  refine ⟨hc, fun e => ?_, fun e x => ?_⟩
  · rw [keep, hhas, has_makeAvailable]
    by_cases he : e = term <;> simp [he]
  · rw [keep, hholds, holds_makeAvailable]

/-! ## Meeting paths -/

/-- The facts about one term that both of two paths have. -/
def share (other out : Available) (pair : Term × Std.ExtTreeSet Loc) : Available :=
  match other.holders[pair.1]? with
  | none => out
  | some theirs => out.keep pair.1 (common pair.2 theirs)

/-- A meeting of paths, as a traversal of one path's terms. -/
theorem meet_eq (facts other : Available) :
    facts.meet other = facts.holders.toList.foldl (share other) {} := rfl

/-- Exactly the facts of both about the terms that were gone through. -/
structure Shared (facts other : Available) (size : Nat) (seen : List Term) (out : Available) :
    Prop where
  consistent : out.Consistent size
  has : ∀ e, out.Has e ↔ e ∈ seen ∧ other.Has e
  holds : ∀ e x, out.Holds e x ↔ e ∈ seen ∧ facts.Holds e x ∧ other.Holds e x

/-- The other facts say nothing about the term. -/
theorem Shared.skip {out : Available} {seen : List Term} (hout : Shared facts other size seen out)
    (hnot : ¬ other.Has term) : Shared facts other size (seen ++ [term]) out where
  consistent := hout.consistent
  has e := by
    rw [hout.has, List.mem_append, List.mem_singleton]
    refine and_congr_left fun hhas => (or_iff_left ?_).symm
    rintro rfl
    exact hnot hhas
  holds e x := by
    rw [hout.holds, List.mem_append, List.mem_singleton]
    refine and_congr_left fun hholds => (or_iff_left ?_).symm
    rintro rfl
    exact hnot hholds.2.has

/-- A location that both hold the term in holds no other one. -/
theorem Shared.keep {out : Available} {seen : List Term} (h : facts.Consistent size)
    (hout : Shared facts other size seen out) {holders : List Loc} (hterm : facts.Has term)
    (hterm' : other.Has term)
    (hholders : ∀ x, x ∈ holders ↔ facts.Holds term x ∧ other.Holds term x) :
    Shared facts other size (seen ++ [term]) (out.keep term holders) := by
  -- a holder holds one term, so no holder of this one was kept for another
  obtain ⟨hkeep, hhas, hholds⟩ := keep_iff hout.consistent (h.indexed.operands_lt hterm)
    fun x hx => h.indexed.holder_lt ((hholders x).mp hx).1
  refine ⟨hkeep, fun e => ?_, fun e x => ?_⟩
  · rw [hhas, hout.has, List.mem_append, List.mem_singleton]
    constructor
    · rintro (rfl | ⟨hseen, hother⟩)
      · exact ⟨Or.inr rfl, hterm'⟩
      · exact ⟨Or.inl hseen, hother⟩
    · rintro ⟨hseen | rfl, hother⟩
      · exact Or.inr ⟨hseen, hother⟩
      · exact Or.inl rfl
  · rw [hholds, hholders, hout.holds, List.mem_append, List.mem_singleton]
    constructor
    · rintro (⟨rfl, hboth⟩ | ⟨⟨hseen, hboth⟩, -⟩)
      · exact ⟨Or.inr rfl, hboth⟩
      · exact ⟨Or.inl hseen, hboth⟩
    · rintro ⟨hseen | rfl, hboth⟩
      · by_cases hin : facts.Holds term x ∧ other.Holds term x
        · exact Or.inl ⟨h.unique hboth.1 hin.1, hin⟩
        · exact Or.inr ⟨⟨hseen, hboth⟩, hin⟩
      · exact Or.inl ⟨rfl, hboth⟩

/-- One term more is seen where paths meet. -/
theorem Shared.step {out : Available} {seen : List Term} (h : facts.Consistent size)
    (hout : Shared facts other size seen out) {mine : Std.ExtTreeSet Loc}
    (hmine : facts.holders[term]? = some mine) :
    Shared facts other size (seen ++ [term]) (share other out (term, mine)) := by
  rw [share]
  cases htheirs : other.holders[term]? with
  | none =>
      refine hout.skip fun hhas => ?_
      rw [Has, Maps.mem_iff, htheirs] at hhas
      obtain ⟨theirs, heq⟩ := hhas
      cases heq
  | some theirs =>
      refine hout.keep h (Maps.mem_of_getElem? hmine) (Maps.mem_of_getElem? htheirs) fun x => ?_
      rw [mem_common, Holds, Holds, hmine, htheirs]
      simp

/-- Some terms more are seen where paths meet. -/
theorem Shared.fold (h : facts.Consistent size) {pairs : List (Term × Std.ExtTreeSet Loc)}
    (hpairs : ∀ pair ∈ pairs, facts.holders[pair.1]? = some pair.2) {out : Available}
    {seen : List Term} (hout : Shared facts other size seen out) :
    Shared facts other size (seen ++ pairs.map Prod.fst) (pairs.foldl (share other) out) := by
  induction pairs generalizing out seen with
  | nil =>
      rw [List.map_nil, List.append_nil]
      exact hout
  | cons pair pairs ih =>
      have hnext := ih (fun other hother => hpairs other (List.mem_cons_of_mem _ hother))
        (hout.step h (hpairs pair List.mem_cons_self))
      rw [List.append_assoc] at hnext
      exact hnext

/-- **WHAT TWO PATHS HAVE IN COMMON**: the facts of both. -/
theorem meet_iff (h : facts.Consistent size) :
    (facts.meet other).Consistent size ∧
      (∀ e, (facts.meet other).Has e ↔ facts.Has e ∧ other.Has e) ∧
      ∀ e x, (facts.meet other).Holds e x ↔ facts.Holds e x ∧ other.Holds e x := by
  have hnone : Shared facts other size [] {} :=
    { consistent := .empty
      has := fun e => iff_of_false not_has_empty (fun hboth => List.not_mem_nil hboth.1)
      holds := fun e x =>
        iff_of_false (fun hx => not_has_empty hx.has) (fun hboth => List.not_mem_nil hboth.1) }
  have hmeet := hnone.fold h fun pair => Std.ExtTreeMap.mem_toList_iff_getElem?_eq_some.mp
  rw [List.nil_append, ← meet_eq] at hmeet
  have hlisted : ∀ {e}, e ∈ facts.holders.toList.map Prod.fst ↔ facts.Has e := by
    intro e
    rw [Std.ExtTreeMap.map_fst_toList_eq_keys, Std.ExtTreeMap.mem_keys]
    rfl
  refine ⟨hmeet.consistent, fun e => ?_, fun e x => ?_⟩
  · rw [hmeet.has, hlisted]
  · rw [hmeet.holds, hlisted]
    exact and_iff_right_of_imp fun hboth => hboth.1.has

end DecafBackend.Available
