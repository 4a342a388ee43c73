import DecafBackend.Proofs.CommonTermsExactness
import Mathlib.Order.BooleanAlgebra.Set

/-! # The transfer of a block is fixed

    A walk through a block threads three indices and a table of numbers, and a
    call takes away only those fields that something is known about.  Still, what
    a block takes away from the facts in front of it, and what it adds to them,
    can be read off its statements: a fact goes away if it is about a location
    that is written, and a fact is added by the save of its term.  So the transfer
    of a block keeps the common facts of two paths apart from nothing else, and
    the solver may join before a block or behind it.

    This holds of every body, also of one that is not well formed.

    * `Coherent`, `denoted` — states with indices that agree, as sets of facts
    * `Change`, `Gives` — facts taken away and added
    * `stmtChange`, `step_gives` — the change by a statement
    * `walk_gives`, `transfer_gives` — the change by a block
    * `transfer_fixed` — transfers and joins on sets of facts -/

namespace DecafBackend

namespace Available

variable {facts other : Available} {size : Nat}

/-! ## Coherent states -/

/-- The three indices say the same, whatever locations they name. -/
structure Coherent (facts : Available) : Prop where
  /-- An entry of a location is the term that it holds. -/
  held : ∀ {loc : Loc} {term : Term}, facts.held[loc]? = some term ↔ facts.Holds term loc
  /-- The readers of a location are the available terms with this operand. -/
  reads : ∀ {loc : Loc} {term : Term},
    Reads facts.readers loc term ↔ facts.Has term ∧ loc ∈ term.operands
  nonempty : NoneEmpty facts.readers

theorem Consistent.coherent (h : facts.Consistent size) : facts.Coherent :=
  ⟨h.held_iff, h.reads_iff, h.nonempty⟩

theorem Coherent.consistent (h : facts.Coherent)
    (hreaders : ∀ loc ∈ facts.readers, loc.index < size)
    (hheld : ∀ loc ∈ facts.held, loc.index < size) : facts.Consistent size where
  indexed := ⟨fun hhas hloc => h.reads.mpr ⟨hhas, hloc⟩, h.held.mpr, hreaders _, hheld _⟩
  reads := h.reads.mp
  nonempty := h.nonempty
  held := h.held.mp

/-- A state names finitely many locations, and so do some more. -/
theorem Coherent.bounded (h : facts.Coherent) (locs : List Loc) :
    ∃ size, facts.Consistent size ∧ ∀ loc ∈ locs, loc.index < size := by
  let named := facts.readers.keys ++ facts.held.keys ++ locs
  have hbound : ∃ size, ∀ loc ∈ named, loc.index < size := by
    induction named with
    | nil => exact ⟨0, nofun⟩
    | cons first rest ih =>
        obtain ⟨size, hrest⟩ := ih
        refine ⟨max size (first.index + 1), fun loc hloc => ?_⟩
        rcases List.mem_cons.mp hloc with rfl | hmem
        · omega
        · exact Nat.lt_of_lt_of_le (hrest loc hmem) (Nat.le_max_left _ _)
  obtain ⟨size, hlt⟩ := hbound
  have hindex : ∀ loc ∈ facts.readers.keys ++ facts.held.keys, loc.index < size :=
    fun loc hloc => hlt loc (List.mem_append_left _ hloc)
  refine ⟨size, h.consistent (fun loc hloc => hindex loc ?_) fun loc hloc => hindex loc ?_,
    fun loc hloc => hlt loc (List.mem_append_right _ hloc)⟩
  · exact List.mem_append_left _ (Std.ExtTreeMap.mem_keys.mpr hloc)
  · exact List.mem_append_right _ (Std.ExtTreeMap.mem_keys.mpr hloc)

end Available

namespace CommonTerms

open Available (Coherent Consistent)

variable {facts left mid other : Available} {size : Nat} {fact : Term × Option Loc}

/-- The facts that a state stands for. -/
def denoted (facts : Available) : Set (Term × Option Loc) := {fact | holds fact facts = true}

theorem mem_denoted : fact ∈ denoted facts ↔ holds fact facts = true := Iff.rfl

/-- **STATES ARE SETS OF FACTS**. -/
theorem eq_iff_denoted (h : facts.Coherent) (hother : other.Coherent) :
    facts = other ↔ denoted facts = denoted other := by
  refine ⟨congrArg denoted, fun hsame => ?_⟩
  obtain ⟨size, hc, -⟩ := h.bounded []
  obtain ⟨size', hc', -⟩ := hother.bounded []
  have hiff : ∀ fact, holds fact facts = true ↔ holds fact other = true :=
    fun fact => Set.ext_iff.mp hsame fact
  refine Available.eq_of_facts hc hc' (fun term => ?_) fun term loc => ?_
  · rw [← holds_none, hiff, holds_none]
  · rw [← holds_some, hiff, holds_some]

/-- Paths that meet have their common facts. -/
theorem meet_denoted (h : facts.Consistent size) :
    (facts.meet other).Consistent size ∧
      denoted (facts.meet other) = denoted facts ∩ denoted other := by
  obtain ⟨hc, hhas, hholds⟩ := @Available.meet_iff facts other _ h
  refine ⟨hc, Set.ext fun fact => ?_⟩
  obtain ⟨term, none | loc⟩ := fact
  · simp only [Set.mem_inter_iff, mem_denoted, holds_none, hhas]
  · simp only [Set.mem_inter_iff, mem_denoted, holds_some, hholds]

/-- The meet of facts is their intersection. -/
theorem meet_coherent (h : facts.Coherent) : (facts.meet other).Coherent ∧
    denoted (facts.meet other) = denoted facts ∩ denoted other := by
  obtain ⟨size, hc, -⟩ := h.bounded []
  exact (meet_denoted hc).imp Consistent.coherent id

/-! ## Changes -/

/-- Facts that are taken away, and facts that are added then. -/
structure Change where
  killed : Set (Term × Option Loc)
  made : Set (Term × Option Loc)

namespace Change

variable {first second change : Change} {before : Set (Term × Option Loc)}

/-- What a change leaves of some facts. -/
def apply (change : Change) (before : Set (Term × Option Loc)) : Set (Term × Option Loc) :=
  before \ change.killed ∪ change.made

/-- Nothing is taken away and nothing is added. -/
def idle : Change := ⟨∅, ∅⟩

/-- One change behind another. -/
def andThen (first second : Change) : Change where
  killed := first.killed ∪ second.killed
  made := second.apply first.made

theorem apply_idle : idle.apply before = before := by
  rw [apply, idle, Set.sdiff_empty, Set.union_empty]

/-- Two changes one after another are one change. -/
theorem apply_andThen :
    (first.andThen second).apply before = second.apply (first.apply before) := by
  ext fact
  simp only [apply, andThen, Set.mem_union, Set.mem_sdiff]
  tauto

/-- It makes no difference whether facts are joined in front of a change or behind it. -/
theorem apply_inter (these those : Set (Term × Option Loc)) :
    change.apply (these ∩ those) = change.apply these ∩ change.apply those := by
  ext fact
  simp only [apply, Set.mem_union, Set.mem_sdiff, Set.mem_inter_iff]
  tauto

/-- A state comes from another one by a change. -/
structure Gives (change : Change) (facts left : Available) : Prop where
  coherent : left.Coherent
  denoted_eq : denoted left = change.apply (denoted facts)

theorem Gives.refl (h : facts.Coherent) : idle.Gives facts facts := ⟨h, apply_idle.symm⟩

/-- Changes follow one another. -/
theorem Gives.trans (h : first.Gives facts mid) (h' : second.Gives mid left) :
    (first.andThen second).Gives facts left :=
  ⟨h'.coherent, by rw [h'.denoted_eq, h.denoted_eq, apply_andThen]⟩

/-- What is known about a location goes away. -/
def write (loc : Loc) : Change := ⟨{fact | loc ∈ places fact}, ∅⟩

/-- What is known about a location goes away, and then it holds a term. -/
def bind (term : Term) (loc : Loc) : Change where
  killed := {fact | loc ∈ places fact}
  made := {fact | fact.1 = term ∧ ∀ holder, fact.2 = some holder → holder = loc}

/-- What is known about fields goes away. -/
def call (body : Body) : Change :=
  ⟨{fact | ∃ loc ∈ places fact, body.isGlobal loc = .ok true}, ∅⟩

end Change

open Change (Gives)

/-- A write forgets all that is said about its location. -/
theorem kill_gives (h : facts.Coherent) (loc : Loc) :
    (Change.write loc).Gives facts (facts.kill loc) := by
  obtain ⟨size, hc, -⟩ := h.bounded []
  refine ⟨(hc.kill loc).coherent, Set.ext fun fact => ?_⟩
  rw [mem_denoted, holds_kill hc, Change.apply, Change.write, Set.union_empty]
  rfl

/-- Rewriting a location forgets it and binds the term to it. -/
theorem rewrite_gives (h : facts.Coherent) (term : Term) (loc : Loc) :
    (Change.bind term loc).Gives facts ((facts.kill loc).register term loc) := by
  obtain ⟨size, hc, hlt⟩ := h.bounded (loc :: term.operands)
  have hsaved : ((facts.kill loc).register term loc).Consistent size :=
    (hc.kill loc).register (fun operand hmem => hlt operand (List.mem_cons_of_mem _ hmem))
      (hlt loc List.mem_cons_self)
  refine ⟨hsaved.coherent, Set.ext fun fact => ?_⟩
  rw [mem_denoted, holds_rewrite hc, or_comm]
  rfl

theorem holds_killAll {locs : List Loc} (h : facts.Consistent size) :
    holds fact (locs.foldl Available.kill facts) = true ↔
      holds fact facts = true ∧ ∀ loc ∈ locs, loc ∉ places fact := by
  induction locs generalizing facts with
  | nil => simp
  | cons first rest ih =>
      rw [List.foldl_cons, ih (h.kill first), holds_kill h, List.forall_mem_cons, and_assoc]

/-- A location that something is known about has an entry in an index. -/
theorem known_of_holds (h : facts.Coherent) (hholds : holds fact facts = true) {loc : Loc}
    (hloc : loc ∈ places fact) : loc ∈ facts.readers ∨ loc ∈ facts.held := by
  have hreads : facts.Has fact.1 → loc ∈ fact.1.operands → loc ∈ facts.readers := by
    intro hhas hmem
    obtain ⟨terms, hterms, -⟩ := h.reads.mpr ⟨hhas, hmem⟩
    exact Maps.mem_of_getElem? hterms
  obtain ⟨term, none | holder⟩ := fact
  · rw [places, Option.toList_none, List.append_nil] at hloc
    exact Or.inl (hreads (holds_none.mp hholds) hloc)
  · have hheld := holds_some.mp hholds
    rw [places, Option.toList_some] at hloc
    rcases List.mem_append.mp hloc with hmem | hmem
    · exact Or.inl (hreads hheld.has hmem)
    · rw [List.mem_singleton.mp hmem]
      exact Or.inr (Maps.mem_of_getElem? (h.held.mpr hheld))

/-- **A CALL TAKES AWAY ALL FIELDS**, although it looks only at those that
    something is known about. -/
theorem killGlobals_gives {body : Body} (h : facts.Coherent)
    (hleft : facts.killGlobals body = .ok left) : (Change.call body).Gives facts left := by
  rw [Available.killGlobals] at hleft
  obtain ⟨fields, hfields, hleft⟩ := Checked.bind_eq_ok hleft
  cases hleft
  obtain ⟨isField, hlook, rfl⟩ := Checked.filterM_eq_ok hfields
  obtain ⟨size, hc, -⟩ := h.bounded []
  refine ⟨hc.killAll.coherent, Set.ext fun fact => ?_⟩
  rw [mem_denoted, holds_killAll hc, Change.apply, Change.call, Set.union_empty, Set.mem_sdiff,
    mem_denoted]
  -- the locations of a fact have entries, so the fields among them are all killed
  refine and_congr_right fun hholds => ⟨?_, ?_⟩
  · rintro hspared ⟨loc, hloc, hfield⟩
    have hknown := Available.mem_known.mpr (known_of_holds h hholds hloc)
    have htrue : isField loc = true := Except.ok.inj ((hlook loc hknown).symm.trans hfield)
    exact hspared loc (List.mem_filter.mpr ⟨hknown, htrue⟩) hloc
  · intro hspared loc hmem hloc
    obtain ⟨hknown, htrue⟩ := List.mem_filter.mp hmem
    exact hspared ⟨loc, hloc, htrue ▸ hlook loc hknown⟩

/-! ## The change by a statement -/

section

variable {body : Body} {temps : Std.ExtTreeMap Inst Loc} {stmt : Inst} {walk next : Walk}

/-- What a save does: it writes its destination, and leaves a term that the
    destination takes no part in there and in its temporary. -/
def saveChange (temps : Std.ExtTreeMap Inst Loc) (save : Inst) (dest : Loc) : Option Term → Change
  | none => .write dest
  | some term =>
    if term.mentions dest then .write dest
    else
      match temps[save]? with
      | none => .bind term dest
      | some temp => (Change.bind term dest).andThen (.bind term temp)

/-- What the record of a statement does. -/
def recordChange (body : Body) (temps : Std.ExtTreeMap Inst Loc) (stmt : Inst) : Change :=
  match body.record stmt with
  | .ok (.save value dest) =>
    match termOf body value with
    | .ok term => saveChange temps stmt dest term
    | .error _ => .idle
  | _ => .idle

/-- What a statement does: first its call, if it makes one, and then its record. -/
def stmtChange (body : Body) (temps : Std.ExtTreeMap Inst Loc) (stmt : Inst) : Change :=
  match body.hasCall stmt with
  | .ok true => (Change.call body).andThen (recordChange body temps stmt)
  | _ => recordChange body temps stmt

theorem write_gives (h : walk.facts.Coherent) (hwrite : write body temps walk stmt = .ok next) :
    (recordChange body temps stmt).Gives walk.facts next.facts := by
  rw [write] at hwrite
  obtain ⟨record, hrecord, hwrite⟩ := Checked.bind_eq_ok hwrite
  rw [recordChange, hrecord]
  -- only a save whose value has a term makes facts, for its destination and its temporary
  cases record with
  | save value dest =>
      obtain ⟨term, hterm, hwrite⟩ := Checked.bind_eq_ok hwrite
      dsimp only
      rw [hterm]
      cases term with
      | none =>
          cases hwrite
          exact kill_gives h dest
      | some term =>
          rw [saveTerm_facts hwrite]
          dsimp only [saveChange]
          split
          · exact kill_gives h dest
          · have hsaved := rewrite_gives h term dest
            cases temps[stmt]? with
            | none => exact hsaved
            | some temp =>
                -- the temporary is written behind the destination
                exact hsaved.trans (rewrite_gives hsaved.coherent term temp)
  | _ =>
      cases hwrite
      exact .refl h

/-- **ONE STATEMENT** takes away and adds the same facts, whatever is known in
    front of it. -/
theorem step_gives (h : walk.facts.Coherent) (hstep : Walk.step body temps walk stmt = .ok next) :
    (stmtChange body temps stmt).Gives walk.facts next.facts := by
  rw [Walk.step] at hstep
  obtain ⟨calls, hcalls, hstep⟩ := Checked.bind_eq_ok hstep
  rw [stmtChange, hcalls]
  cases calls with
  | false => exact write_gives h hstep
  | true =>
      obtain ⟨called, hcalled, hstep⟩ := Checked.bind_eq_ok hstep
      obtain ⟨table, -, hstep⟩ := Checked.bind_eq_ok hstep
      have hcall := killGlobals_gives h hcalled
      let behindCall : Walk := { walk with facts := called, table }
      have hwritten : (recordChange body temps stmt).Gives behindCall.facts next.facts :=
        write_gives hcall.coherent hstep
      exact hcall.trans hwritten

/-- What statements do, one after another. -/
def stmtsChange (body : Body) (temps : Std.ExtTreeMap Inst Loc) : List Inst → Change
  | [] => .idle
  | stmt :: rest => (stmtChange body temps stmt).andThen (stmtsChange body temps rest)

/-- A walk through statements changes the facts by their changes, one after another. -/
theorem walk_gives {stmts : List Inst} (h : walk.facts.Coherent)
    (hsteps : stmts.foldlM (Walk.step body temps) walk = .ok next) :
    (stmtsChange body temps stmts).Gives walk.facts next.facts := by
  induction stmts generalizing walk with
  | nil =>
      cases hsteps
      exact .refl h
  | cons stmt rest ih =>
      rw [List.foldlM_cons] at hsteps
      obtain ⟨mid, hstep, hsteps⟩ := Checked.bind_eq_ok hsteps
      have hfirst := step_gives h hstep
      exact hfirst.trans (ih hfirst.coherent hsteps)

/-- **WHAT A BLOCK DOES** to the facts in front of it. -/
theorem transfer_gives {block : Block} {input output : Available} (h : input.Coherent)
    (htransfer : (analysis body temps).transfer block input = .ok output) :
    (stmtsChange body temps (body.stmtsOf block)).Gives input output := by
  obtain ⟨walk, hwalk, rfl⟩ := Checked.map_eq_ok htransfer
  have hstart : ({ facts := input } : Walk).facts.Coherent := h
  exact walk_gives hstart hwalk

/-! ## Transfers that give a result -/

/-- A block of a well-formed body gives a result for all states about the
    locations of the body. -/
theorem transfer_ok (wf : WellFormed body) (htemps : ∀ {stmt : Inst} {temp : Loc},
      temps[stmt]? = some temp → body.locations[temp.index]? = some .temp)
    (block : Block) {input : Available} (h : input.Consistent body.locations.size) :
    ∃ output, (analysis body temps).transfer block input = .ok output ∧
      output.Consistent body.locations.size := by
  -- one statement after another; each can be looked up in a well-formed body
  obtain ⟨walk, hwalk, hleft, -⟩ : ∃ walk, walkBlock body temps block input = .ok walk ∧
      walk.facts.Consistent body.locations.size ∧ walk.table.Bounded body := by
    -- facts and numbers stay about locations of the body, which can all be looked up
    refine Checked.foldlM_ok _ ⟨h, NumberTable.Bounded.empty body⟩ ?_
    rintro walk stmt hstmt ⟨hfacts, htable⟩
    obtain ⟨command, hcommand, hvalid⟩ := wf.commands stmt (Body.mem_stmts_of_stmtsOf hstmt)
    obtain ⟨next, hstep, hmove⟩ := step_ok hcommand hvalid hfacts.indexed htable
    have hplaced : ∀ {temp : Loc}, temps[stmt]? = some temp → temp.index < body.locations.size :=
      fun htemp => (Array.getElem?_eq_some_iff.mp (htemps htemp)).1
    have hindexed := (hmove.stepped hvalid hplaced hfacts.indexed).indexed
    have hcoherent := (step_gives hfacts.coherent hstep).coherent
    exact ⟨next, hstep, hcoherent.consistent (fun _ => hindexed.readers) fun _ => hindexed.held,
      (hmove.table hvalid htemps htable).1⟩
  refine ⟨walk.facts, ?_, hleft⟩
  show Walk.facts <$> walkBlock body temps block input = _
  rw [hwalk]
  rfl

end

/-! ## Transfers and joins -/

/-- The laws of a join that keeps the common facts. -/
structure Intersects (join : Available → Available → Available) : Prop where
  denoted_eq : ∀ a b, a.Coherent → b.Coherent →
    (join a b).Coherent ∧ denoted (join a b) = denoted a ∩ denoted b
  consistent : ∀ a b size, a.Consistent size → b.Consistent size → (join a b).Consistent size
  comm : ∀ a b, a.Coherent → b.Coherent → join a b = join b a
  assoc : ∀ a b c, a.Coherent → b.Coherent → c.Coherent →
    join (join a b) c = join a (join b c)
  idem : ∀ a, a.Coherent → join a a = a

/-- Joining facts is intersecting them. -/
theorem intersects_meet : Intersects .meet where
  denoted_eq a b ha _ := meet_coherent ha
  consistent a b size ha _ := (meet_denoted ha).1
  comm a b ha hb := by
    rw [eq_iff_denoted (meet_coherent ha).1 (meet_coherent hb).1, (meet_coherent ha).2,
      (meet_coherent hb).2, Set.inter_comm]
  assoc a b c ha hb _ := by
    obtain ⟨hab, hleft⟩ := @meet_coherent a b ha
    obtain ⟨-, hright⟩ := @meet_coherent b c hb
    obtain ⟨habc, houter⟩ := @meet_coherent (a.meet b) c hab
    obtain ⟨habc', houter'⟩ := @meet_coherent a (b.meet c) ha
    rw [eq_iff_denoted habc habc', houter, houter', hleft, hright, Set.inter_assoc]
  idem a ha := by
    rw [eq_iff_denoted (meet_coherent ha).1 ha, (meet_coherent ha).2, Set.inter_self]

/-- A block takes away and adds fixed facts, so that states can be joined in
    front of it or behind it. -/
structure FixedAt (analysis : Analysis Available) (block : Block) : Prop where
  gives : ∃ killed made : Set (Term × Option Loc), ∀ input output, input.Coherent →
    analysis.transfer block input = .ok output →
      output.Coherent ∧ denoted output = denoted input \ killed ∪ made
  distributes : ∀ a b outA outB output, a.Coherent → b.Coherent →
    analysis.transfer block a = .ok outA → analysis.transfer block b = .ok outB →
    analysis.transfer block (analysis.join a b) = .ok output → output = analysis.join outA outB

section

variable {body : Body} {temps : Std.ExtTreeMap Inst Loc} {block : Block}

/-- Joining behind a block is joining in front of it. -/
theorem transfer_meet {a b outA outB output : Available} (ha : a.Coherent) (hb : b.Coherent)
    (houtA : (analysis body temps).transfer block a = .ok outA)
    (houtB : (analysis body temps).transfer block b = .ok outB)
    (houtput : (analysis body temps).transfer block (a.meet b) = .ok output) :
    output = outA.meet outB := by
  let change := stmtsChange body temps (body.stmtsOf block)
  obtain ⟨hjoined, hboth⟩ := @meet_coherent a b ha
  have hgivesA : change.Gives a outA := transfer_gives ha houtA
  have hgivesB : change.Gives b outB := transfer_gives hb houtB
  have hgives : change.Gives (a.meet b) output := transfer_gives hjoined houtput
  obtain ⟨hcoherent, hbehind⟩ := @meet_coherent outA outB hgivesA.coherent
  refine (eq_iff_denoted hgives.coherent hcoherent).mpr ?_
  calc denoted output
      = change.apply (denoted a ∩ denoted b) := by rw [hgives.denoted_eq, hboth]
    _ = change.apply (denoted a) ∩ change.apply (denoted b) := Change.apply_inter _ _
    _ = denoted outA ∩ denoted outB := by rw [hgivesA.denoted_eq, hgivesB.denoted_eq]
    _ = denoted (outA.meet outB) := hbehind.symm

/-- What a block makes and kills does not depend on what comes in. -/
theorem fixedAt_analysis : FixedAt (analysis body temps) block where
  gives := by
    let change := stmtsChange body temps (body.stmtsOf block)
    refine ⟨change.killed, change.made, fun input output h htransfer => ?_⟩
    have hgives : change.Gives input output := transfer_gives h htransfer
    exact ⟨hgives.coherent, hgives.denoted_eq⟩
  distributes _ _ _ _ _ := transfer_meet

end

/-- **THE TRANSFER OF A BLOCK IS FIXED**: in every body, read on sets of facts,
    transfers take away and add fixed sets, joins are intersections and go through
    transfers, and two states are the same if they stand for the same facts.  In a
    well-formed body transfers give results. -/
theorem transfer_fixed (body : Body) (temps : Std.ExtTreeMap Inst Loc) :
    (∀ block, FixedAt (analysis body temps) block) ∧
    Intersects (analysis body temps).join ∧
    (∀ a b : Available, a.Coherent → b.Coherent → (a = b ↔ denoted a = denoted b)) ∧
    (WellFormed body →
      (∀ (stmt : Inst) (temp : Loc), temps[stmt]? = some temp →
        body.locations[temp.index]? = some .temp) →
      ∀ (block : Block) (input : Available), input.Consistent body.locations.size →
        ∃ output, (analysis body temps).transfer block input = .ok output ∧
          output.Consistent body.locations.size) :=
  ⟨fun _ => fixedAt_analysis, intersects_meet, fun _ _ => eq_iff_denoted,
    fun wf htemps block _ => transfer_ok wf (htemps _ _) block⟩

/-- The facts on a path that left the sum in a variable. -/
def leftIn (loc : Loc) : Available := Available.register {} (.canonical .add ⟨0⟩ ⟨1⟩) loc

/-- Two paths left the sum in variables of their own.  Behind the block that
    computes it again, only the variable that this block writes is known to hold it
    on both. -/
theorem joinedSums_fixed : ∃ outA outB,
    (analysis joinedSums ∅).transfer ⟨3⟩ (leftIn ⟨2⟩) = .ok outA ∧
    (analysis joinedSums ∅).transfer ⟨3⟩ (leftIn ⟨3⟩) = .ok outB ∧
    outA.holdersOf (.canonical .add ⟨0⟩ ⟨1⟩) = [⟨2⟩, ⟨4⟩] ∧
    outB.holdersOf (.canonical .add ⟨0⟩ ⟨1⟩) = [⟨3⟩, ⟨4⟩] ∧
    (analysis joinedSums ∅).transfer ⟨3⟩ ((leftIn ⟨2⟩).meet (leftIn ⟨3⟩)) =
      .ok (outA.meet outB) := by
  obtain ⟨hfixed, hjoin, -, hreturns⟩ := transfer_fixed joinedSums ∅
  have hconsistent : ∀ loc : Loc, loc.index < 5 → (leftIn loc).Consistent 5 := by
    intro loc hloc
    exact Consistent.empty.register (by decide) hloc
  have ha := hconsistent ⟨2⟩ (by decide)
  have hb := hconsistent ⟨3⟩ (by decide)
  -- the block can be passed with any facts, since the body is well formed
  have hall : ∀ input : Available, input.Consistent 5 →
      ∃ output, (analysis joinedSums ∅).transfer ⟨3⟩ input = .ok output := by
    intro input h
    have wf : WellFormed joinedSums := by decide +kernel
    obtain ⟨output, houtput, -⟩ := hreturns wf (fun _ _ htemp => by cases htemp) ⟨3⟩ input h
    exact ⟨output, houtput⟩
  obtain ⟨output, houtput⟩ := hall _ (hjoin.consistent _ _ _ ha hb)
  obtain ⟨outA, houtA, hheldA⟩ := @Checked.exists_of_test _ _
    ((analysis joinedSums ∅).transfer ⟨3⟩ (leftIn ⟨2⟩))
    (fun out => out.holdersOf (.canonical .add ⟨0⟩ ⟨1⟩) == [⟨2⟩, ⟨4⟩]) (by decide +kernel)
  obtain ⟨outB, houtB, hheldB⟩ := @Checked.exists_of_test _ _
    ((analysis joinedSums ∅).transfer ⟨3⟩ (leftIn ⟨3⟩))
    (fun out => out.holdersOf (.canonical .add ⟨0⟩ ⟨1⟩) == [⟨3⟩, ⟨4⟩]) (by decide +kernel)
  have hsame := (hfixed ⟨3⟩).distributes _ _ _ _ _ ha.coherent hb.coherent houtA houtB houtput
  refine ⟨outA, outB, houtA, houtB, beq_iff_eq.mp hheldA, beq_iff_eq.mp hheldB, ?_⟩
  rw [← show output = outA.meet outB from hsame]
  exact houtput

end CommonTerms

end DecafBackend
