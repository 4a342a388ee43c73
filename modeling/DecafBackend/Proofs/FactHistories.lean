import DecafBackend.Proofs.AvailableSets

/-! # Facts after any operations

    Whatever is made available, registered, killed and joined, in any order, the three
    indices of the facts say the same.  So a write finds all that it makes stale, and
    takes nothing else away.

    * `History`, `History.facts` — operations, and the facts that they lead to
    * `meetMerging_consistent` — joins that put temporaries into one set
    * `Exact`, `History.exact` — what holds after any operations -/

namespace DecafBackend.Available

/-- How facts came about. -/
inductive History
  /-- No facts. -/
  | start
  /-- A term was made available. -/
  | makeAvailable (term : Term) (before : History)
  /-- A location was written with a term. -/
  | register (term : Term) (loc : Loc) (before : History)
  /-- A location was written. -/
  | kill (loc : Loc) (before : History)
  /-- A statement of a body made a call. -/
  | killGlobals (body : Body) (before : History)
  /-- Two paths met. -/
  | meet (first second : History)
  /-- Two paths met, and temporaries were put into one set. -/
  | meetMerging (isTemp : Loc → Bool) (aliases : DisjointSets .loc) (first second : History)

namespace History

/-- The facts that operations lead to. -/
def facts : History → Checked Available
  | start => return {}
  | makeAvailable term before => return (← before.facts).makeAvailable term
  | register term loc before => return (← before.facts).register term loc
  | kill loc before => return (← before.facts).kill loc
  | killGlobals body before => do (← before.facts).killGlobals body
  | meet first second => return (← first.facts).meet (← second.facts)
  | meetMerging isTemp aliases first second =>
    return (Available.meetMerging isTemp aliases (← first.facts) (← second.facts)).2

end History

variable {facts other left : Available} {term : Term} {loc : Loc} {size more : Nat}

/-! ## Bounds -/

/-- Facts in range are in range of more locations. -/
theorem Consistent.mono (h : facts.Consistent size) (hle : size ≤ more) :
    facts.Consistent more where
  indexed := ⟨h.indexed.reads, h.indexed.holds,
    fun hmem => Nat.lt_of_lt_of_le (h.indexed.readers hmem) hle,
    fun hmem => Nat.lt_of_lt_of_le (h.indexed.held hmem) hle⟩
  reads := h.reads
  nonempty := h.nonempty
  held := h.held

/-- The indices agree, whatever locations they name. -/
def Agrees (facts : Available) : Prop := ∃ size, facts.Consistent size

/-- A bound on the locations of the facts and on some more. -/
theorem Agrees.bounded (h : facts.Agrees) (locs : List Loc) :
    ∃ size, facts.Consistent size ∧ ∀ loc ∈ locs, loc.index < size := by
  obtain ⟨size, hsize⟩ := h
  induction locs with
  | nil => exact ⟨size, hsize, List.forall_mem_nil _⟩
  | cons loc locs ih =>
      obtain ⟨bound, hbound, hlocs⟩ := ih
      refine ⟨Nat.max bound (loc.index + 1), hbound.mono (Nat.le_max_left _ _),
        List.forall_mem_cons.mpr ⟨Nat.le_max_right _ _, fun x hx => ?_⟩⟩
      exact Nat.lt_of_lt_of_le (hlocs x hx) (Nat.le_max_left _ _)

/-! ## Operations -/

/-- Indices agree when a term becomes available. -/
theorem Agrees.makeAvailable (h : facts.Agrees) (term : Term) :
    (facts.makeAvailable term).Agrees := by
  obtain ⟨size, hsize, hterm⟩ := h.bounded term.operands
  exact ⟨size, hsize.makeAvailable hterm⟩

/-- Indices agree when a holder is registered. -/
theorem Agrees.register (h : facts.Agrees) (term : Term) (loc : Loc) :
    (facts.register term loc).Agrees := by
  obtain ⟨size, hsize, hlocs⟩ := h.bounded (loc :: term.operands)
  obtain ⟨hloc, hterm⟩ := List.forall_mem_cons.mp hlocs
  exact ⟨size, hsize.register hterm hloc⟩

/-- Indices agree when a location is killed. -/
theorem Agrees.kill (h : facts.Agrees) (loc : Loc) : (facts.kill loc).Agrees := by
  obtain ⟨size, hsize⟩ := h
  exact ⟨size, hsize.kill loc⟩

/-- Indices agree when the fields are killed. -/
theorem Agrees.killGlobals (h : facts.Agrees) {body : Body}
    (hleft : facts.killGlobals body = .ok left) : left.Agrees := by
  obtain ⟨size, hsize⟩ := h
  obtain ⟨fields, -, hleft⟩ := Checked.bind_eq_ok hleft
  cases hleft
  exact ⟨size, hsize.killAll⟩

/-- Indices agree on what two paths share. -/
theorem Agrees.meet (h : facts.Agrees) (other : Available) : (facts.meet other).Agrees := by
  obtain ⟨size, hsize⟩ := h
  exact ⟨size, (meet_iff hsize).1⟩

/-- Where temporaries are put into one set, the smaller one is a holder from one path. -/
theorem meetMerging_consistent (h : facts.Consistent size) (hother : other.Consistent size)
    (isTemp : Loc → Bool) (aliases : DisjointSets .loc) :
    (Available.meetMerging isTemp aliases facts other).2.Consistent size := by
  rw [Available.meetMerging]
  -- the invariant of the loop over the terms is that what is kept is consistent
  refine List.foldlRecOn facts.holders.toList _
    (motive := fun (state : DisjointSets .loc × Available) => state.2.Consistent size)
    Consistent.empty ?_
  rintro ⟨aliases, out⟩ hout ⟨term, mine⟩ hmem
  have hmine := Std.ExtTreeMap.mem_toList_iff_getElem?_eq_some.mp hmem
  have hterm := h.indexed.operands_lt (Maps.mem_of_getElem? hmine)
  dsimp only
  cases htheirs : other.holders[term]? with
  | none => exact hout
  | some theirs =>
      dsimp only
      split
      · next a b _ ha hb =>
          have hfirst : facts.Holds term a :=
            ⟨mine, hmine, Std.ExtTreeSet.mem_toList.mp (List.mem_of_find?_eq_some ha)⟩
          have hsecond : other.Holds term b :=
            ⟨theirs, htheirs, Std.ExtTreeSet.mem_toList.mp (List.mem_of_find?_eq_some hb)⟩
          refine (keep_iff hout hterm (List.forall_mem_singleton.mpr ?_)).1
          rcases DisjointSets.least_cases a b with ⟨hleast, -⟩ | ⟨hleast, -⟩
          · rw [hleast]
            exact h.indexed.holder_lt hfirst
          · rw [hleast]
            exact hother.indexed.holder_lt hsecond
      · refine (keep_iff hout hterm fun x hx => ?_).1
        exact h.indexed.holder_lt ⟨mine, hmine, (mem_common.mp hx).1⟩

/-- Indices agree on what two paths share when holders are put into one set. -/
theorem Agrees.meetMerging (h : facts.Agrees) (hother : other.Agrees) (isTemp : Loc → Bool)
    (aliases : DisjointSets .loc) :
    (Available.meetMerging isTemp aliases facts other).2.Agrees := by
  obtain ⟨size, hsize⟩ := h
  obtain ⟨size', hsize'⟩ := hother
  exact ⟨Nat.max size size', meetMerging_consistent (hsize.mono (Nat.le_max_left _ _))
    (hsize'.mono (Nat.le_max_right _ _)) isTemp aliases⟩

/-- **INDICES AGREE** after any operations. -/
theorem History.agrees (history : History) (h : history.facts = .ok facts) : facts.Agrees := by
  -- by induction on the history, each operation keeps the agreement
  induction history generalizing facts with
  | start =>
      cases h
      exact ⟨0, Consistent.empty⟩
  | makeAvailable term before ih =>
      obtain ⟨old, hold, h⟩ := Checked.bind_eq_ok h
      cases h
      exact (ih hold).makeAvailable term
  | register term loc before ih =>
      obtain ⟨old, hold, h⟩ := Checked.bind_eq_ok h
      cases h
      exact (ih hold).register term loc
  | kill loc before ih =>
      obtain ⟨old, hold, h⟩ := Checked.bind_eq_ok h
      cases h
      exact (ih hold).kill loc
  | killGlobals body before ih =>
      obtain ⟨old, hold, h⟩ := Checked.bind_eq_ok h
      exact (ih hold).killGlobals h
  | meet first second ihFirst ihSecond =>
      obtain ⟨mine, hmine, h⟩ := Checked.bind_eq_ok h
      obtain ⟨theirs, -, h⟩ := Checked.bind_eq_ok h
      cases h
      exact (ihFirst hmine).meet theirs
  | meetMerging isTemp aliases first second ihFirst ihSecond =>
      obtain ⟨mine, hmine, h⟩ := Checked.bind_eq_ok h
      obtain ⟨theirs, htheirs, h⟩ := Checked.bind_eq_ok h
      cases h
      exact (ihFirst hmine).meetMerging (ihSecond htheirs) isTemp aliases

/-! ## What agreeing indices guarantee -/

/-- The three indices say the same facts, and a write takes exactly those away that
    depend on the location. -/
structure Exact (facts : Available) : Prop where
  /-- A location is among the holders of a term if that is what it holds. -/
  held : ∀ term loc, facts.Holds term loc ↔ facts.held[loc]? = some term
  /-- A term is among the readers of a location if it is available and reads it. -/
  readers : ∀ loc term, Reads facts.readers loc term ↔ facts.Has term ∧ loc ∈ term.operands
  /-- No location is listed without readers. -/
  nonempty : ∀ (loc : Loc) (terms : Std.ExtTreeSet Term), facts.readers[loc]? = some terms →
    terms.isEmpty = false
  /-- The terms that read the location are gone, and no other ones. -/
  killHas : ∀ loc term, (facts.kill loc).Has term ↔ facts.Has term ∧ loc ∉ term.operands
  /-- What held such a term holds nothing, nor does the location; all else is held as
      before. -/
  killHolds : ∀ loc term x, (facts.kill loc).Holds term x ↔
    facts.Holds term x ∧ loc ∉ term.operands ∧ x ≠ loc

/-- Facts whose indices agree say what they should. -/
theorem Consistent.exact (h : facts.Consistent size) : facts.Exact where
  held _ _ := h.held_iff.symm
  readers _ _ := h.reads_iff
  nonempty loc terms hterms := by
    obtain ⟨term, hterm⟩ := h.nonempty loc terms hterms
    rw [Std.ExtTreeSet.isEmpty_eq_false_iff]
    rintro rfl
    exact Std.ExtTreeSet.not_mem_empty hterm
  killHas _ _ := has_kill_iff h
  killHolds _ _ _ := holds_kill_iff h

/-- **FACTS STAY EXACT**, after any operations. -/
theorem History.facts_exact (history : History) (h : history.facts = .ok facts) : facts.Exact := by
  obtain ⟨_, hsize⟩ := history.agrees h
  exact hsize.exact

/-- Two paths leave `x + x` in different temporaries, which are put into one set; then
    a location that held it is written with `-x`. -/
def History.joinedDoubles : History :=
  let doubled (temp : Loc) : History :=
    .register (.binary .add ⟨0⟩ ⟨0⟩) temp (.register (.binary .add ⟨0⟩ ⟨0⟩) ⟨1⟩ .start)
  .register (.unary .neg ⟨0⟩) ⟨1⟩
    (.meetMerging (fun loc => 2 ≤ loc.index) {} (.kill ⟨1⟩ (doubled ⟨2⟩)) (doubled ⟨3⟩))

/-- The facts of a doubled sum, joined of two paths, are exact. -/
theorem History.joinedDoubles_exact : ∃ facts, joinedDoubles.facts = .ok facts ∧
    facts.terms = [.unary .neg ⟨0⟩, .binary .add ⟨0⟩ ⟨0⟩] ∧
    facts.holdersOf (.binary .add ⟨0⟩ ⟨0⟩) = [⟨2⟩] ∧ (facts.kill ⟨0⟩).terms = [] ∧
    facts.Exact := by
  obtain ⟨facts, hfacts, htest⟩ := @Checked.exists_of_test _ _ joinedDoubles.facts
    (fun facts => facts.terms = [.unary .neg ⟨0⟩, .binary .add ⟨0⟩ ⟨0⟩] &&
      (facts.holdersOf (.binary .add ⟨0⟩ ⟨0⟩) = [⟨2⟩] && (facts.kill ⟨0⟩).terms = []))
    (by decide +kernel)
  simp only [Bool.and_eq_true, decide_eq_true_eq] at htest
  exact ⟨facts, hfacts, htest.1, htest.2.1, htest.2.2, joinedDoubles.facts_exact hfacts⟩

end DecafBackend.Available
