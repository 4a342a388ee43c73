import Mathlib.Logic.Relation
import DecafBackend.Proofs.Allocation
import DecafBackend.Proofs.LivenessExactness

/-! # Webs are closed under reaching

    A save reaches a read if the read can find what the save wrote.  Webs are
    what this connects: the saves of a web are linked by chains in which
    neighbours reach a common read, all saves that such chains lead to are in
    it, and so are all the reads that its saves reach.  The reads of a location
    that no save reaches are in a web of their own.

    * `Body.Reaches`, `Body.Meets` — saves, and the reads that they reach
    * `Joined` — sets of definitions are joined by chains only
    * `Separated` — each set has a web to itself
    * `Filled` — each location has one web for what no save reaches
    * `Closure`, `ofBody_closure` — the webs of a body -/

namespace DecafBackend

namespace Body

/-! ## Saves and reads -/

/-- A statement of the body saves into a variable or temporary. -/
structure SavesInto (body : Body) (save : Inst) (loc : Loc) : Prop where
  stmt : save ∈ body.stmts
  saves : body.Saves save loc
  tracks : body.tracks loc = true

/-- A record of the body reads a variable or temporary. -/
structure ReadsFrom (body : Body) (access : Access) : Prop where
  read : access ∈ body.allReads
  tracks : body.tracks access.loc = true

/-- Control can come from behind a save to a read of the location without
    another save into it. -/
structure Reaches (body : Body) (save : Inst) (access : Access) : Prop where
  saves : body.SavesInto save access.loc
  live : ∃ block before rest, body.stmtsOf block = before ++ save :: rest ∧
    body.Live access ⟨block, rest⟩

/-- Two saves into a location reach a common read. -/
def Meets (body : Body) (loc : Loc) (a b : Inst) : Prop :=
  ∃ read, body.Reaches a ⟨read, loc⟩ ∧ body.Reaches b ⟨read, loc⟩

variable {body : Body}

/-- A statement saves into one location only. -/
theorem SavesInto.unique {stmt : Inst} {a b : Loc} (ha : body.SavesInto stmt a)
    (hb : body.SavesInto stmt b) : a = b := by
  obtain ⟨value, hcommand⟩ := ha.saves
  obtain ⟨value', hcommand'⟩ := hb.saves
  rw [hcommand] at hcommand'
  cases hcommand'
  rfl

theorem savesInto_iff {stmt : Inst} {loc : Loc} : body.SavesInto stmt loc ↔ stmt ∈ body.stmts ∧
    ∃ command, body.command? stmt = some command ∧ body.trackedDest? command = some loc := by
  constructor
  · rintro ⟨hstmt, ⟨value, hcommand⟩, htracks⟩
    exact ⟨hstmt, _, hcommand, trackedDest?_eq_some.mpr ⟨rfl, htracks⟩⟩
  · rintro ⟨hstmt, command, hcommand, hdest⟩
    obtain ⟨hdest?, htracks⟩ := trackedDest?_eq_some.mp hdest
    obtain ⟨value, rfl⟩ := Command.eq_save hdest?
    exact ⟨hstmt, ⟨value, hcommand⟩, htracks⟩

end Body

/-- Exact liveness finds the reads that saves reach. -/
theorem Liveness.Exact.mem_reachedBy {body : Body} {graph : FlowGraph} {liveness : Liveness}
    (h : Exact body graph liveness) {save read : Inst} {loc : Loc}
    (hsave : body.SavesInto save loc) :
    read ∈ liveness.reachedBy save ↔ body.Reaches save ⟨read, loc⟩ := by
  obtain ⟨value, hcommand⟩ := hsave.saves
  constructor
  · intro hread
    obtain ⟨block, -, hmem⟩ := Body.mem_stmts.mp hsave.stmt
    obtain ⟨before, rest, hsplit⟩ := List.append_of_mem hmem
    exact ⟨hsave, block, before, rest, hsplit,
      (h.reached hsplit hcommand hsave.tracks read).mp hread⟩
  · rintro ⟨-, block, before, rest, hsplit, hlive⟩
    exact (h.reached hsplit hcommand hsave.tracks read).mpr hlive

namespace Webs

variable {body : Body} {graph : FlowGraph} {liveness : Liveness}

/-! ## Joined definitions -/

/-- Two statements reach a common access. -/
def Shares (reaches : Inst → Access → Prop) (a b : Inst) : Prop :=
  ∃ access, reaches a access ∧ reaches b access

instance (reaches : Inst → Access → Prop) : Std.Symm (Shares reaches) where
  symm _ _ := fun ⟨access, ha, hb⟩ => ⟨access, hb, ha⟩

/-- Chains can be read both ways. -/
theorem chain_symm {reaches : Inst → Access → Prop} {a b : Inst}
    (h : Relation.ReflTransGen (Shares reaches) a b) :
    Relation.ReflTransGen (Shares reaches) b a := Std.Symm.symm a b h

/-- Definitions that were linked so far: a chain leads from each to its
    representative. -/
structure Joined (reaches : Inst → Access → Prop)
    (state : Std.ExtTreeMap Access Inst × DisjointSets .inst) : Prop where
  ordered : state.2.Ordered
  root : ∀ inst, Relation.ReflTransGen (Shares reaches) inst (state.2.root inst)
  first : ∀ {access : Access} {inst : Inst}, state.1[access]? = some inst → reaches inst access

namespace Joined

variable {reaches : Inst → Access → Prop} {state : Std.ExtTreeMap Access Inst × DisjointSets .inst}

theorem start : Joined reaches (∅, {}) where
  ordered := DisjointSets.Ordered.empty
  root inst := by rw [DisjointSets.root_empty]
  first h := by cases h

/-- One more read of a definition. -/
theorem link (h : Joined reaches state) {d : Definition} {read : Inst}
    (hreaches : reaches d.inst ⟨read, d.loc⟩) : Joined reaches (Webs.link d state read) := by
  -- the first read of an access is remembered, any later one joins its definition to the
  -- first
  obtain ⟨first, sets⟩ := state
  rw [Webs.link]
  cases hfirst : first[(⟨read, d.loc⟩ : Access)]? with
  | none =>
      refine ⟨h.ordered, h.root, fun {access inst} hinst => ?_⟩
      rw [Maps.getElem?_insert] at hinst
      split at hinst
      · next heq =>
          cases hinst
          exact heq ▸ hreaches
      · exact h.first hinst
  | some other =>
      have hshares : Shares reaches other d.inst := ⟨_, h.first hfirst, hreaches⟩
      obtain ⟨hordered, hroot⟩ := DisjointSets.root_union h.ordered other d.inst
      refine ⟨hordered, fun inst => ?_, h.first⟩
      dsimp only
      rw [hroot inst]
      have hother := h.root other
      have hd := h.root d.inst
      split
      · next hmerged =>
          -- the common read links the representatives, so a chain leads to both of them
          have hlinked : Relation.ReflTransGen (Shares reaches) (sets.root other)
              (sets.root d.inst) := (chain_symm hother).trans (.head hshares hd)
          have hboth : Relation.ReflTransGen (Shares reaches) inst (sets.root other) ∧
              Relation.ReflTransGen (Shares reaches) inst (sets.root d.inst) := by
            have hinst : Relation.ReflTransGen (Shares reaches) inst (sets.root inst) := h.root inst
            rcases hmerged with hsame | hsame
            · rw [hsame] at hinst
              exact ⟨hinst, hinst.trans hlinked⟩
            · rw [hsame] at hinst
              exact ⟨hinst.trans (chain_symm hlinked), hinst⟩
          rcases DisjointSets.least_cases (sets.root other) (sets.root d.inst) with
            ⟨heq, -⟩ | ⟨heq, -⟩
          · rw [heq]
            exact hboth.1
          · rw [heq]
            exact hboth.2
      · exact h.root inst

/-- The sets of all definitions are joined by chains only. -/
theorem all {defs : List Definition}
    (hreaches : ∀ d ∈ defs, ∀ read ∈ d.reads, reaches d.inst ⟨read, d.loc⟩) :
    Joined reaches (defs.foldl (fun state d => d.reads.foldl (Webs.link d) state) (∅, {})) :=
  List.foldlRecOn defs _ start fun _ h d hd =>
    List.foldlRecOn d.reads _ h fun _ h read hread => h.link (hreaches d hd read hread)

end Joined

/-- **A SET HOLDS WHAT CHAINS JOIN**, and nothing else. -/
theorem chain_of_root_eq {reaches : Inst → Access → Prop} {defs : List Definition}
    (hreaches : ∀ d ∈ defs, ∀ read ∈ d.reads, reaches d.inst ⟨read, d.loc⟩) {a b : Inst}
    (hroot : (linkedDefinitions defs).root a = (linkedDefinitions defs).root b) :
    Relation.ReflTransGen (Shares reaches) a b := by
  have h := Joined.all hreaches
  have ha : Relation.ReflTransGen (Shares reaches) a ((linkedDefinitions defs).root a) := h.root a
  have hb : Relation.ReflTransGen (Shares reaches) b ((linkedDefinitions defs).root b) := h.root b
  rw [hroot] at ha
  exact ha.trans (chain_symm hb)

/-! ## Separated webs -/

/-- Each web so far belongs to one set of definitions. -/
structure Separated (sets : DisjointSets .inst) (defs : List Definition)
    (roots : Std.ExtTreeMap Inst WebKey) (webs : Webs) : Prop where
  distinct : ∀ {a b : Inst} {key : WebKey}, roots[a]? = some key → roots[b]? = some key → a = b
  owned : ∀ {key : WebKey} {loc : Loc}, webs.loc? key = some loc →
    ∃ d ∈ defs, roots[sets.root d.inst]? = some key

namespace Separated

variable {sets : DisjointSets .inst} {defs seen : List Definition}
  {roots : Std.ExtTreeMap Inst WebKey} {webs : Webs}

theorem start : Separated sets defs ∅ {} where
  distinct h := by cases h
  owned h := by cases h

/-- A web for a set that has none. -/
theorem newWeb (h : Separated sets defs roots webs) (hgrouped : Grouped sets defs seen roots webs)
    {d : Definition} (hd : d ∈ defs) (hroot : roots[sets.root d.inst]? = none) :
    Separated sets defs (roots.insert (sets.root d.inst) (webs.newWeb d.loc).1)
      (webs.newWeb d.loc).2 where
  -- two sets with one web: at most one of them is the set of the new web
  distinct {a b key} ha hb := by
    -- the key of the new web was no set's before
    have hfresh : ∀ {root : Inst}, roots[root]? ≠ some (webs.newWeb d.loc).1 := by
      intro root hold
      obtain ⟨other, -, -, hloc⟩ := hgrouped.rooted hold
      rw [loc?_newWeb_fst] at hloc
      cases hloc
    rw [Maps.getElem?_insert] at ha hb
    split at ha <;> split at hb
    · next heq heq' => exact heq.symm.trans heq'
    · cases ha
      exact absurd hb hfresh
    · cases hb
      exact absurd ha hfresh
    · exact h.distinct ha hb
  owned {key loc} hloc := by
    rcases loc?_newWeb_cases hloc with ⟨rfl, -⟩ | hold
    · exact ⟨d, hd, Std.ExtTreeMap.getElem?_insert_self⟩
    · obtain ⟨other, hother, hkey⟩ := h.owned hold
      refine ⟨other, hother, ?_⟩
      rw [Maps.getElem?_insert_ne]
      · exact hkey
      · intro heq
        rw [heq, hroot] at hkey
        cases hkey

theorem extend (h : Separated sets defs roots webs) {key : WebKey} {loc : Loc}
    {insts uses : List Inst} : Separated sets defs roots (webs.extend key loc insts uses) where
  distinct := h.distinct
  owned {other _} hloc := h.owned ((loc?_extend other).symm.trans hloc)

/-- One definition more. -/
theorem add (h : Separated sets defs roots webs) (hgrouped : Grouped sets defs seen roots webs)
    {d : Definition} (hd : d ∈ defs) : Separated sets defs (addDefinition sets (roots, webs) d).1
      (addDefinition sets (roots, webs) d).2 := by
  cases hroot : roots[sets.root d.inst]? with
  | none =>
      rw [addDefinition_of_none hroot]
      exact (h.newWeb hgrouped hd hroot).extend
  | some key =>
      rw [addDefinition_of_some hroot]
      exact h.extend

/-- Each set gets a web to itself. -/
theorem all (hsets : Partitions sets defs) :
    Separated sets defs (defs.foldl (addDefinition sets) (∅, {})).1
      (defs.foldl (addDefinition sets) (∅, {})).2 :=
  (List.foldlRecOn defs (addDefinition sets)
    (motive := fun state => (∃ seen, Grouped sets defs seen state.1 state.2) ∧
      Separated sets defs state.1 state.2)
    ⟨⟨[], .start⟩, start⟩ fun _ ⟨⟨_, hgrouped⟩, h⟩ _ hd =>
      ⟨⟨_, hgrouped.add hsets hd⟩, h.add hgrouped hd⟩).2

end Separated

/-! ## Reads that no save reaches -/

/-- A read was added to a web without definitions, which is the web of its
    location, or a new one if the location had none. -/
structure Adds (read : Access) (key : WebKey) (state after : Std.ExtTreeMap Loc WebKey × Webs) :
    Prop where
  byDef : after.2.byDef = state.2.byDef
  byUse : ∀ access : Access, after.2.byUse[access]? =
    if access = read then some key else state.2.byUse[access]?
  defless : ∀ loc : Loc, after.1[loc]? = if read.loc = loc then some key else state.1[loc]?
  loc : ∀ {other : WebKey} {loc : Loc}, state.2.loc? other = some loc →
    after.2.loc? other = some loc
  covers : ∀ {other : WebKey} {loc : Loc}, after.2.loc? other = some loc →
    state.2.loc? other = some loc ∨ (other = key ∧ read.loc = loc)
  fresh : state.1[read.loc]? = some key ∨
    (state.1[read.loc]? = none ∧ state.2.loc? key = none)

/-- What a read that is gone through does. -/
theorem addUnreached_cases {state after : Std.ExtTreeMap Loc WebKey × Webs} {read : Access}
    (hloc : read.loc.index < body.locations.size)
    (h : addUnreached body state read = .ok after) :
    (after = state ∧ (body.tracks read.loc = true → ∃ key, state.2.byUse[read]? = some key)) ∨
      ∃ key, Adds read key state after := by
  obtain ⟨defless, webs⟩ := state
  -- only this read of this location is listed as a use
  have huse : ∀ {webs : Webs} {key : WebKey} (access : Access),
      (webs.extend key read.loc [] [read.inst]).byUse[access]? =
        if access = read then some key else webs.byUse[access]? := by
    intro webs key access
    have hiff : (access.loc = read.loc ∧ access.inst ∈ [read.inst]) ↔ access = read := by
      obtain ⟨inst, loc⟩ := access
      rw [List.mem_singleton]
      exact ⟨fun ⟨hloc, hinst⟩ => by dsimp only at hloc hinst; rw [hloc, hinst],
        fun heq => ⟨congrArg Access.loc heq, congrArg Access.inst heq⟩⟩
    rw [byUse_extend]
    simp only [hiff]
  rw [addUnreached, Body.isTracked_eq hloc] at h
  simp only [bind, Except.bind] at h
  split at h
  · next hskip =>
      refine Or.inl ⟨(Except.ok.inj h).symm, fun htracks => ?_⟩
      rw [htracks, Bool.not_true, Bool.false_or] at hskip
      exact Maps.mem_iff.mp (Std.ExtTreeMap.contains_iff_mem.mp hskip)
  · refine Or.inr ?_
    -- the first read of its location makes the web, the others come to it
    cases hkey : defless[read.loc]? with
    | none =>
        rw [hkey] at h
        obtain rfl : after = (defless.insert read.loc (webs.newWeb read.loc).1,
            (webs.newWeb read.loc).2.extend (webs.newWeb read.loc).1 read.loc [] [read.inst]) :=
          (Except.ok.inj h).symm
        exact ⟨(webs.newWeb read.loc).1, rfl, huse, fun loc => Maps.getElem?_insert,
          fun hold => (loc?_extend _).trans (loc?_newWeb hold),
          fun hnew => (loc?_newWeb_cases ((loc?_extend _).symm.trans hnew)).symm,
          Or.inr ⟨hkey, loc?_newWeb_fst⟩⟩
    | some key =>
        rw [hkey] at h
        obtain rfl : after = (defless, webs.extend key read.loc [] [read.inst]) :=
          (Except.ok.inj h).symm
        refine ⟨key, rfl, huse, fun loc => ?_, fun hold => (loc?_extend _).trans hold,
          fun hnew => Or.inl ((loc?_extend _).symm.trans hnew), Or.inl hkey⟩
        split
        · next heq => exact heq ▸ hkey
        · rfl

/-- Webs after the reads `seen` were gone through; `defless` has the web of each
    location that a web without definitions was made for. -/
structure Filled (body : Body) (before : Webs) (seen : List Access)
    (state : Std.ExtTreeMap Loc WebKey × Webs) : Prop where
  byDef : state.2.byDef = before.byDef
  loc : ∀ {key : WebKey} {loc : Loc}, before.loc? key = some loc → state.2.loc? key = some loc
  fresh : ∀ {loc : Loc} {key : WebKey}, state.1[loc]? = some key → before.loc? key = none
  used : ∀ {loc : Loc} {key : WebKey}, state.1[loc]? = some key →
    ∃ inst, state.2.byUse[(⟨inst, loc⟩ : Access)]? = some key
  covers : ∀ {key : WebKey} {loc : Loc}, state.2.loc? key = some loc →
    before.loc? key = some loc ∨ state.1[loc]? = some key
  seen : ∀ access ∈ seen, body.tracks access.loc = true →
    ∃ key, state.2.byUse[access]? = some key
  byUse : ∀ {access : Access} {key : WebKey}, state.2.byUse[access]? = some key →
    before.byUse[access]? = some key ∨ state.1[access.loc]? = some key

namespace Filled

variable {before : Webs} {seen : List Access} {state after : Std.ExtTreeMap Loc WebKey × Webs}

theorem start : Filled body before [] (∅, before) where
  byDef := rfl
  loc h := h
  fresh h := by cases h
  used h := by cases h
  covers h := Or.inl h
  seen _ h := by cases h
  byUse h := Or.inl h

/-- One read that is added. -/
theorem adds (h : Filled body before seen state) {read : Access} {key : WebKey}
    (hadds : Adds read key state after) : Filled body before (seen ++ [read]) after := by
  -- the web of a location stays its web
  have hgrows : ∀ {loc : Loc} {other : WebKey}, state.1[loc]? = some other →
      after.1[loc]? = some other := by
    intro loc other hold
    rw [hadds.defless]
    split
    · next heq =>
        rw [← heq] at hold
        rcases hadds.fresh with hsame | ⟨hnone, -⟩
        · exact hsame.symm.trans hold
        · rw [hnone] at hold
          cases hold
    · exact hold
  have hread : after.1[read.loc]? = some key := (hadds.defless _).trans (if_pos rfl)
  refine ⟨hadds.byDef.trans h.byDef, fun hloc => hadds.loc (h.loc hloc), ?_, ?_, ?_, ?_, ?_⟩
  · intro loc other hother
    rw [hadds.defless] at hother
    split at hother
    · cases hother
      rcases hadds.fresh with hsame | ⟨-, hnone⟩
      · exact h.fresh hsame
      · refine Option.eq_none_iff_forall_ne_some.mpr fun old hold => ?_
        rw [h.loc hold] at hnone
        cases hnone
    · exact h.fresh hother
  · intro loc other hother
    rw [hadds.defless] at hother
    split at hother
    · next heq =>
        cases hother
        exact ⟨read.inst, (hadds.byUse _).trans (if_pos (heq ▸ rfl))⟩
    · next hne =>
        obtain ⟨inst, hinst⟩ := h.used hother
        refine ⟨inst, (hadds.byUse _).trans ((if_neg fun heq => hne ?_).trans hinst)⟩
        exact (congrArg Access.loc heq).symm
  -- every web is an old one or the web of this location
  · intro other loc hloc
    rcases hadds.covers hloc with hold | ⟨rfl, rfl⟩
    · exact (h.covers hold).imp_right hgrows
    · exact Or.inr hread
  · intro access haccess htracks
    rw [hadds.byUse]
    split
    · exact ⟨key, rfl⟩
    · next hne =>
        rcases List.mem_append.mp haccess with hold | hnew
        · exact h.seen access hold htracks
        · exact absurd (List.mem_singleton.mp hnew) hne
  · intro access other hother
    rw [hadds.byUse] at hother
    split at hother
    · next heq =>
        cases hother
        exact Or.inr (heq ▸ hread)
    · exact (h.byUse hother).imp_right hgrows

/-- One read that is gone through. -/
theorem add (h : Filled body before seen state) {read : Access}
    (hloc : read.loc.index < body.locations.size)
    (hok : addUnreached body state read = .ok after) :
    Filled body before (seen ++ [read]) after := by
  rcases addUnreached_cases hloc hok with ⟨rfl, hlisted⟩ | ⟨key, hadds⟩
  · refine ⟨h.byDef, h.loc, h.fresh, h.used, h.covers, fun access haccess htracks => ?_, h.byUse⟩
    rcases List.mem_append.mp haccess with hold | hnew
    · exact h.seen access hold htracks
    · rw [List.mem_singleton.mp hnew] at htracks ⊢
      exact hlisted htracks
  · exact h.adds hadds

/-- All the reads that are left are added. -/
theorem addAll {reads : List Access}
    (hlocs : ∀ read ∈ reads, read.loc.index < body.locations.size)
    (h : Filled body before seen state) (hok : reads.foldlM (addUnreached body) state = .ok after) :
    Filled body before (seen ++ reads) after := by
  induction reads generalizing seen state with
  | nil =>
      cases hok
      rw [List.append_nil]
      exact h
  | cons read reads ih =>
      rw [List.foldlM_cons] at hok
      obtain ⟨next, hnext, hok⟩ := Checked.bind_eq_ok hok
      rw [← List.singleton_append, ← List.append_assoc]
      exact ih (fun other hother => hlocs other (List.mem_cons_of_mem read hother))
        (h.add (hlocs read List.mem_cons_self) hnext) hok

end Filled

/-! ## The webs of a body -/

/-- How the saves and the reads of a body are sorted into webs. -/
structure Sorted (body : Body) (defless : Std.ExtTreeMap Loc WebKey) (webs : Webs) : Prop where
  chained : ∀ {a b : Inst} {key : WebKey}, webs.byDef[a]? = some key →
    webs.byDef[b]? = some key → Relation.ReflTransGen (Shares body.Reaches) a b
  listed : ∀ {access : Access}, body.ReadsFrom access → ∃ key, webs.byUse[access]? = some key
  defined : ∀ {key : WebKey} {loc : Loc}, webs.loc? key = some loc →
    (∃ save : Inst, webs.byDef[save]? = some key) ∨ defless[loc]? = some key
  unsaved : ∀ {loc : Loc} {key : WebKey}, defless[loc]? = some key →
    ∀ save : Inst, webs.byDef[save]? ≠ some key
  used : ∀ {loc : Loc} {key : WebKey}, defless[loc]? = some key →
    ∃ inst, webs.byUse[(⟨inst, loc⟩ : Access)]? = some key
  byUse : ∀ {access : Access} {key : WebKey}, webs.byUse[access]? = some key →
    (∃ save, body.Reaches save access) ∨ defless[access.loc]? = some key

/-- Computing webs sorts the accesses. -/
theorem compute_sorted (wf : WellFormed body) (h : liveness.Computed body graph)
    (hexact : Liveness.Exact body graph liveness) {webs : Webs}
    (hok : compute body liveness = .ok webs) : ∃ defless, Sorted body defless webs := by
  obtain ⟨defs, hdefs, hmem⟩ := definitions_ok wf h
  have hreaches : ∀ d ∈ defs, ∀ read ∈ d.reads, body.Reaches d.inst ⟨read, d.loc⟩ := by
    intro d hd read hread
    have hdefines := (hmem d).mp hd
    rw [hdefines.reads] at hread
    exact (hexact.mem_reachedBy
      (Body.savesInto_iff.mpr ⟨hdefines.stmt, hdefines.dest⟩)).mp hread
  have hsets := partitions_of_defines fun d hd => (hmem d).mp hd
  -- definitions first, then the reads that are left
  rw [compute] at hok
  obtain ⟨defs', hdefs', hok⟩ := Checked.bind_eq_ok hok
  obtain rfl := Except.ok.inj (hdefs.symm.trans hdefs')
  obtain ⟨reads, hreads, hok⟩ := Checked.bind_eq_ok hok
  obtain rfl := Except.ok.inj (wf.mapM_reads.symm.trans hreads)
  obtain ⟨⟨defless, after⟩, hfold, hok⟩ := Checked.bind_eq_ok hok
  obtain rfl := Checked.pure_eq_ok hok
  have hgrouped := @Grouped.addAll _ _ _ hsets defs (fun d hd => hd) (∅, {}) Grouped.start
  have hseparated := Separated.all hsets
  have hfilled := Filled.addAll (fun read hread => wf.loc_of_mem_allReads hread) Filled.start hfold
  refine ⟨defless, ?_, ?_, ?_, ?_, ?_, ?_⟩
  · -- saves of one web are in one set, since a web belongs to one set only
    intro a b key ha hb
    rw [hfilled.byDef] at ha hb
    obtain ⟨d, hd, rfl⟩ := hgrouped.byDef ha
    obtain ⟨e, he, rfl⟩ := hgrouped.byDef hb
    obtain ⟨-, key, hkey, hdef, -⟩ := hgrouped.member d hd
    obtain ⟨-, key', hkey', hdef', -⟩ := hgrouped.member e he
    obtain rfl := Option.some.inj (ha.symm.trans hdef)
    obtain rfl := Option.some.inj (hb.symm.trans hdef')
    exact chain_of_root_eq hreaches (hseparated.distinct hkey hkey')
  · intro access haccess
    exact hfilled.seen access haccess.read haccess.tracks
  · -- a web that was made for a set has the definitions of the set
    intro key loc hloc
    refine (hfilled.covers hloc).imp_left fun hold => ?_
    obtain ⟨d, hd, hkey⟩ := hseparated.owned hold
    obtain ⟨-, key', hkey', hdef, -⟩ :=
      hgrouped.member d (List.mem_append_left [] (List.mem_reverse.mpr hd))
    obtain rfl := Option.some.inj (hkey.symm.trans hkey')
    exact ⟨d.inst, hfilled.byDef ▸ hdef⟩
  · -- the webs for the reads that are left were not there before
    intro loc key hkey save hsave
    rw [hfilled.byDef] at hsave
    obtain ⟨web, hweb, -⟩ := hgrouped.indexed.byDef.mp hsave
    have hnone := hfilled.fresh hkey
    rw [loc?, hweb] at hnone
    cases hnone
  · exact hfilled.used
  · -- what was listed before is read from a definition
    intro access key hkey
    refine (hfilled.byUse hkey).imp_left fun hold => ?_
    obtain ⟨d, hd, hloc, hread⟩ := hgrouped.byUse hold
    rw [List.append_nil, List.mem_reverse] at hd
    obtain ⟨inst, loc⟩ := access
    obtain rfl : d.loc = loc := hloc
    exact ⟨d.inst, hreaches d hd inst hread⟩

/-- The webs of a body: its saves and its reads of variables and temporaries,
    each in one web of its location. -/
structure Closure (body : Body) (webs : Webs) : Prop where
  /-- The web of an access is looked up where the access is listed. -/
  indexed : Indexed webs
  /-- A save is a definition of one web. -/
  save : ∀ stmt loc, body.SavesInto stmt loc → ∃! key, webs.HasDef key stmt
  /-- A read of a location is in one web of that location. -/
  read : ∀ access, body.ReadsFrom access → ∃! key, webs.HasUse key access
  /-- A web has saves and reads of its location only. -/
  accesses : ∀ (key : WebKey) (web : Web), webs.webs[key.index]? = some web →
    (∀ stmt ∈ web.defs, body.SavesInto stmt web.loc) ∧
      ∀ inst ∈ web.uses, body.ReadsFrom ⟨inst, web.loc⟩
  /-- Two saves are in one web if a chain of saves leads from one to the other, in
      which neighbours reach a common read, and only then. -/
  linked : ∀ a b loc loc', body.SavesInto a loc → body.SavesInto b loc' →
    ((∃ key, webs.HasDef key a ∧ webs.HasDef key b) ↔
      Relation.ReflTransGen (body.Meets loc) a b)
  /-- A read is in the web of every save that reaches it. -/
  reached : ∀ save access, body.Reaches save access →
    ∃ key, webs.HasDef key save ∧ webs.HasUse key access
  /-- A web without saves has a read, and it has all reads of its location that
      no save reaches, and no others. -/
  defless : ∀ (key : WebKey) (web : Web), webs.webs[key.index]? = some web →
    web.isDefless = true → (∃ inst, inst ∈ web.uses) ∧
      ∀ inst, inst ∈ web.uses ↔
        body.ReadsFrom ⟨inst, web.loc⟩ ∧ ∀ save, ¬ body.Reaches save ⟨inst, web.loc⟩
  /-- A location with such reads has one web for them. -/
  unreached : ∀ access, body.ReadsFrom access → (∀ save, ¬ body.Reaches save access) →
    ∃! key : WebKey, ∃ web, webs.webs[key.index]? = some web ∧ web.loc = access.loc ∧
      web.isDefless = true

/-- Neighbours of a chain have the location of its first save. -/
theorem chain_meets {a b : Inst} {loc : Loc} (ha : body.SavesInto a loc)
    (h : Relation.ReflTransGen (Shares body.Reaches) a b) :
    Relation.ReflTransGen (body.Meets loc) a b ∧ body.SavesInto b loc := by
  -- each save on the chain has one location, so the common reads are reads of it
  induction h with
  | refl => exact ⟨.refl, ha⟩
  | @tail b c _ hshares ih =>
      obtain ⟨hchain, hb⟩ := ih
      obtain ⟨⟨read, loc'⟩, hreaches, hreaches'⟩ := hshares
      obtain rfl := hb.unique hreaches.saves
      exact ⟨hchain.tail ⟨read, hreaches, hreaches'⟩, hreaches'.saves⟩

theorem isDefless_iff {web : Web} : web.isDefless = true ↔ ∀ inst, inst ∉ web.defs := by
  rw [Web.isDefless, Std.ExtTreeSet.isEmpty_iff, Std.ExtTreeSet.eq_empty_iff_forall_not_mem]

namespace Computed

variable {webs : Webs} (h : Computed body liveness webs)
include h

theorem of_byDef {save : Inst} {key : WebKey} (hdef : webs.byDef[save]? = some key) :
    ∃ loc, body.SavesInto save loc ∧ webs.loc? key = some loc := by
  obtain ⟨hstmt, command, loc, hcommand, hdest⟩ := h.byDef hdef
  obtain ⟨key', hdef', hloc, -⟩ := h.definition hstmt hcommand hdest
  obtain rfl := Option.some.inj (hdef.symm.trans hdef')
  exact ⟨loc, Body.savesInto_iff.mpr ⟨hstmt, command, hcommand, hdest⟩, hloc⟩

theorem byDef_of_saves {save : Inst} {loc : Loc} (hsave : body.SavesInto save loc) :
    ∃ key, webs.byDef[save]? = some key := by
  obtain ⟨hstmt, command, hcommand, hdest⟩ := Body.savesInto_iff.mp hsave
  obtain ⟨key, hdef, -⟩ := h.definition hstmt hcommand hdest
  exact ⟨key, hdef⟩

/-- A save and a read that it reaches are in one web. -/
theorem reached (hexact : Liveness.Exact body graph liveness) {save : Inst} {access : Access}
    (hreaches : body.Reaches save access) :
    ∃ key, webs.byDef[save]? = some key ∧ webs.byUse[access]? = some key := by
  obtain ⟨hstmt, command, hcommand, hdest⟩ := Body.savesInto_iff.mp hreaches.saves
  obtain ⟨key, hdef, -, huse⟩ := h.definition hstmt hcommand hdest
  exact ⟨key, hdef, huse _ ((hexact.mem_reachedBy hreaches.saves).mpr hreaches)⟩

/-- Saves that a chain joins are in one web. -/
theorem byDef_of_chain (hexact : Liveness.Exact body graph liveness) {a b : Inst} {loc : Loc}
    {key : WebKey} (ha : webs.byDef[a]? = some key)
    (hchain : Relation.ReflTransGen (body.Meets loc) a b) : webs.byDef[b]? = some key := by
  -- the web of a common read is the web of both neighbours
  induction hchain with
  | refl => exact ha
  | tail _ hmeets ih =>
      obtain ⟨read, hfirst, hsecond⟩ := hmeets
      obtain ⟨key₁, hdef₁, huse₁⟩ := h.reached hexact hfirst
      obtain ⟨key₂, hdef₂, huse₂⟩ := h.reached hexact hsecond
      rw [hdef₂, ← huse₂, huse₁, ← hdef₁, ih]

/-- A web without saves is the one for the reads that no save reaches. -/
theorem defless_iff {defless : Std.ExtTreeMap Loc WebKey} (hsorted : Sorted body defless webs)
    {key : WebKey} {web : Web} (hweb : webs.webs[key.index]? = some web) :
    web.isDefless = true ↔ defless[web.loc]? = some key := by
  rw [isDefless_iff]
  constructor
  · intro hnone
    refine (hsorted.defined (congrArg (Option.map Web.loc) hweb)).resolve_left ?_
    rintro ⟨save, hsave⟩
    obtain ⟨other, hother, hmem⟩ := h.indexed.byDef.mp hsave
    rw [hweb] at hother
    cases hother
    exact hnone save hmem
  · intro hkey save hmem
    exact hsorted.unsaved hkey save (h.indexed.byDef.mpr ⟨web, hweb, hmem⟩)

/-- A read that no save reaches is in the web for such reads. -/
theorem byUse_of_unreached {defless : Std.ExtTreeMap Loc WebKey}
    (hsorted : Sorted body defless webs) {access : Access} (haccess : body.ReadsFrom access)
    (hnone : ∀ save, ¬ body.Reaches save access) :
    ∃ key, defless[access.loc]? = some key ∧ webs.HasUse key access := by
  obtain ⟨key, huse⟩ := hsorted.listed haccess
  refine ⟨key, (hsorted.byUse huse).resolve_left ?_, h.indexed.byUse.mp huse⟩
  rintro ⟨save, hreaches⟩
  exact hnone save hreaches

/-- Webs that accesses are sorted into are closed. -/
theorem closure {defless : Std.ExtTreeMap Loc WebKey} (hexact : Liveness.Exact body graph liveness)
    (hsorted : Sorted body defless webs) : Closure body webs where
  indexed := h.indexed
  save stmt loc hsave := by
    obtain ⟨key, hdef⟩ := h.byDef_of_saves hsave
    refine ⟨key, h.indexed.byDef.mp hdef, fun other hother => ?_⟩
    exact Option.some.inj ((h.indexed.byDef.mpr hother).symm.trans hdef)
  -- a read is listed once, in the web that its index names
  read access haccess := by
    obtain ⟨key, huse⟩ := hsorted.listed haccess
    refine ⟨key, h.indexed.byUse.mp huse, fun other hother => ?_⟩
    exact Option.some.inj ((h.indexed.byUse.mpr hother).symm.trans huse)
  accesses key web hweb := by
    constructor
    · intro stmt hstmt
      obtain ⟨loc, hsaves, hloc⟩ := h.of_byDef (h.indexed.byDef.mpr ⟨web, hweb, hstmt⟩)
      rw [loc?, hweb] at hloc
      exact Option.some.inj hloc ▸ hsaves
    · intro inst hinst
      have huse : webs.byUse[(⟨inst, web.loc⟩ : Access)]? = some key :=
        h.indexed.byUse.mpr ⟨web, hweb, rfl, hinst⟩
      obtain ⟨hread, htracks⟩ := h.byUse huse
      exact ⟨hread, htracks⟩
  -- saves of one web are joined by a chain, and a chain stays within a web
  linked a b loc loc' ha hb := by
    constructor
    · rintro ⟨key, hdef, hdef'⟩
      exact (chain_meets ha
        (hsorted.chained (h.indexed.byDef.mpr hdef) (h.indexed.byDef.mpr hdef'))).1
    · intro hchain
      obtain ⟨key, hdef⟩ := h.byDef_of_saves ha
      exact ⟨key, h.indexed.byDef.mp hdef,
        h.indexed.byDef.mp (h.byDef_of_chain hexact hdef hchain)⟩
  reached save access hreaches := by
    obtain ⟨key, hdef, huse⟩ := h.reached hexact hreaches
    exact ⟨key, h.indexed.byDef.mp hdef, h.indexed.byUse.mp huse⟩
  -- the web without definitions holds exactly the reads that no save reaches
  defless key web hweb hnone := by
    have hkey := (h.defless_iff hsorted hweb).mp hnone
    refine ⟨?_, fun inst => ⟨fun hmem => ?_, fun hleft => ?_⟩⟩
    · obtain ⟨inst, huse⟩ := hsorted.used hkey
      obtain ⟨other, hother, -, hmem⟩ := h.indexed.byUse.mp huse
      rw [hweb] at hother
      cases hother
      exact ⟨inst, hmem⟩
    · have huse : webs.byUse[(⟨inst, web.loc⟩ : Access)]? = some key :=
        h.indexed.byUse.mpr ⟨web, hweb, rfl, hmem⟩
      obtain ⟨hread, htracks⟩ := h.byUse huse
      refine ⟨⟨hread, htracks⟩, fun save hreaches => ?_⟩
      -- the save would be in this web
      obtain ⟨other, hdef, huse'⟩ := h.reached hexact hreaches
      obtain rfl := Option.some.inj (huse.symm.trans huse')
      exact hsorted.unsaved hkey save hdef
    · obtain ⟨haccess, hunreached⟩ := hleft
      obtain ⟨other, hother, found, hfound, -, hmem⟩ :=
        h.byUse_of_unreached hsorted haccess hunreached
      obtain rfl := Option.some.inj (hkey.symm.trans hother)
      rw [hweb] at hfound
      cases hfound
      exact hmem
  unreached access haccess hnone := by
    obtain ⟨key, hkey, web, hweb, hloc, -⟩ := h.byUse_of_unreached hsorted haccess hnone
    refine ⟨key, ⟨web, hweb, hloc, (h.defless_iff hsorted hweb).mpr (hloc ▸ hkey)⟩, ?_⟩
    rintro other ⟨found, hfound, hloc', hdefless⟩
    have hother := (h.defless_iff hsorted hfound).mp hdefless
    rw [hloc', hkey] at hother
    exact (Option.some.inj hother).symm

end Computed

/-- **WEBS ARE THE CLOSURE OF WHAT REACHES WHAT**, for every well-formed body, with
    any loops and unreachable blocks. -/
theorem ofBody_closure {body : Body} (wf : WellFormed body) :
    ∃ webs, ofBody body = .ok webs ∧ Closure body webs := by
  obtain ⟨graph, hgraph, hflow⟩ := wf.flowGraph_ok
  obtain ⟨liveness, hliveness, hlive⟩ := Liveness.compute_ok wf hflow
  obtain ⟨steps, hsolve⟩ := Liveness.solve_of_compute hliveness
  have hexact := Liveness.exact_of_computed wf hlive hsolve
  obtain ⟨webs, hwebs, h⟩ := compute_ok wf hlive
  obtain ⟨defless, hsorted⟩ := compute_sorted wf hlive hexact hwebs
  refine ⟨webs, ?_, h.closure hexact hsorted⟩
  rw [ofBody, Liveness.ofBody, hgraph]
  show (Liveness.compute body graph >>= _) = _
  rw [hliveness]
  exact hwebs

/-- A body that saves into a variable on both sides of a branch, reads it where they
    meet and saves into it once more, and reads another one that it saves nowhere. -/
def joinedSaves : Body where
  name := ⟨0⟩
  records := #[.load ⟨2⟩, .branch ⟨0⟩ ⟨0⟩, .load ⟨3⟩, .save ⟨2⟩ ⟨0⟩, .jump ⟨1⟩, .label ⟨0⟩,
    .load ⟨3⟩, .save ⟨6⟩ ⟨0⟩, .label ⟨1⟩, .load ⟨0⟩, .save ⟨9⟩ ⟨1⟩, .load ⟨2⟩, .save ⟨11⟩ ⟨0⟩,
    .ret none]
  locations := #[.localVar ⟨1⟩, .localVar ⟨2⟩, .localVar ⟨3⟩, .constant 5]
  labels := #[some ⟨2⟩, some ⟨3⟩]
  blocks := #[⟨none, [⟨1⟩]⟩, ⟨none, [⟨3⟩, ⟨4⟩]⟩, ⟨some ⟨0⟩, [⟨5⟩, ⟨7⟩]⟩,
    ⟨some ⟨1⟩, [⟨8⟩, ⟨10⟩, ⟨12⟩, ⟨13⟩]⟩]

/-- The two saves that meet are in one web, and the third one is not. -/
theorem joinedSaves_closure : ∃ webs, ofBody joinedSaves = .ok webs ∧ Closure joinedSaves webs ∧
    webs.webs.toList.map (fun web => (web.loc, web.defs.toList, web.uses.toList)) =
      [(⟨0⟩, [⟨3⟩, ⟨7⟩], [⟨9⟩]), (⟨1⟩, [⟨10⟩], []), (⟨0⟩, [⟨12⟩], []), (⟨2⟩, [], [⟨0⟩, ⟨11⟩])] := by
  have wf : WellFormed joinedSaves := by decide +kernel
  obtain ⟨webs, hwebs, hclosure⟩ := ofBody_closure wf
  have htest : (ofBody joinedSaves).toOption.map (fun webs =>
      webs.webs.toList.map fun web => (web.loc, web.defs.toList, web.uses.toList)) =
      some [(⟨0⟩, [⟨3⟩, ⟨7⟩], [⟨9⟩]), (⟨1⟩, [⟨10⟩], []), (⟨0⟩, [⟨12⟩], []),
        (⟨2⟩, [], [⟨0⟩, ⟨11⟩])] := by decide +kernel
  rw [hwebs] at htest
  exact ⟨webs, hwebs, hclosure, Option.some.inj htest⟩

end Webs

end DecafBackend
