import DecafBackend.Allocation.Web
import DecafBackend.Proofs.DeadSavesEdits
import DecafBackend.Proofs.DisjointSets

/-! # Webs

    Definitions of one location that reach a common read are linked, and only
    such definitions are.  So every definition has a web, which is a web of its
    location and has all the reads that the definition reaches.

    * `definitions_ok` — the definitions that webs are made of
    * `Linked`, `Linked.link` — definitions that share reads
    * `Indexed` — accesses are looked up where they are listed
    * `Grouped.add`, `Completed.add` — one definition more, and one read more
    * `compute_ok` — the webs of a body -/

namespace DecafBackend.Webs

variable {body : Body} {graph : FlowGraph} {liveness : Liveness}

/-! ## Definitions -/

/-- A definition as liveness finds it. -/
structure Defines (body : Body) (liveness : Liveness) (definition : Definition) : Prop where
  stmt : definition.inst ∈ body.stmts
  dest : ∃ command, body.command? definition.inst = some command ∧
    body.trackedDest? command = some definition.loc
  reads : definition.reads = liveness.reachedBy definition.inst

/-- The statements of the body that define tracked locations are its definitions. -/
theorem definitions_ok (wf : WellFormed body) (h : liveness.Computed body graph) :
    ∃ defs, definitions body liveness = .ok defs ∧
      ∀ definition, definition ∈ defs ↔ Defines body liveness definition := by
  -- what liveness has under a key is a definition
  have hkey : ∀ pair ∈ liveness.definitions, pair.1 ∈ body.stmts ∧
      ∃ command loc, body.command? pair.1 = some command ∧
        body.trackedDest? command = some loc ∧ liveness.reachedBy pair.1 = pair.2 := by
    rintro ⟨inst, reads⟩ hpair
    have hreached : liveness.reached[inst]? = some reads :=
      Std.ExtTreeMap.mem_toList_iff_getElem?_eq_some.mp hpair
    have hstmt := h.keys (Maps.mem_of_getElem? hreached)
    obtain ⟨command, hcommand, -⟩ := wf.commands inst hstmt
    obtain ⟨live, hlive, -⟩ := h.reached_ok wf hstmt hcommand
    rw [hreached] at hlive
    cases hdest : body.trackedDest? command with
    | none => rw [hdest] at hlive; cases hlive
    | some loc =>
        refine ⟨hstmt, command, loc, hcommand, hdest, ?_⟩
        rw [Liveness.reachedBy, hreached]
        rfl
  -- each definition has a destination, so none of the pairs is left out
  have hok : definitions body liveness = .ok (liveness.definitions.filterMap fun pair =>
      ((body.command? pair.1).bind Command.dest?).map fun loc => ⟨pair.1, loc, pair.2⟩) := by
    refine Checked.filterMapM_eq fun pair hpair => ?_
    obtain ⟨-, command, loc, hcommand, -⟩ := hkey pair hpair
    obtain ⟨record, hrecord, hdest, -⟩ := Body.record_command hcommand
    show (body.record pair.1 >>= fun record => _) = _
    rw [Body.record_eq hrecord, hcommand, Option.bind_some, ← hdest]
    rfl
  refine ⟨_, hok, fun definition => ?_⟩
  rw [List.mem_filterMap]
  constructor
  · rintro ⟨⟨inst, reads⟩, hpair, hsome⟩
    obtain ⟨hstmt, command, loc, hcommand, hdest, hreads⟩ := hkey _ hpair
    dsimp only at hstmt hcommand hreads hsome
    rw [hcommand, Option.bind_some, (Body.trackedDest?_eq_some.mp hdest).1] at hsome
    cases hsome
    exact ⟨hstmt, ⟨command, hcommand, hdest⟩, hreads.symm⟩
  · rintro ⟨hstmt, ⟨command, hcommand, hdest⟩, hreads⟩
    obtain ⟨live, hlive, -⟩ := h.reached_ok wf hstmt hcommand
    rw [hdest, Option.map_some] at hlive
    refine ⟨(definition.inst, live.readers definition.loc),
      Std.ExtTreeMap.mem_toList_iff_getElem?_eq_some.mpr hlive, ?_⟩
    dsimp only
    rw [hcommand, Option.bind_some, (Body.trackedDest?_eq_some.mp hdest).1, Option.map_some]
    obtain ⟨inst, loc, reads⟩ := definition
    dsimp only at hreads
    rw [hreads, Liveness.reachedBy, hlive]
    rfl

/-! ## Linking definitions -/

/-- Definitions that were linked: `seen` are the reads that were gone through. -/
structure Linked (dest : Inst → Option Loc) (seen : Definition → Inst → Prop)
    (state : Std.ExtTreeMap Access Inst × DisjointSets .inst) : Prop where
  ordered : state.2.Ordered
  dest_root : ∀ inst, dest (state.2.root inst) = dest inst
  dest_first : ∀ {access : Access} {inst : Inst}, state.1[access]? = some inst →
    dest inst = some access.loc
  first : ∀ {definition : Definition} {read : Inst}, seen definition read → ∃ inst,
    state.1[(⟨read, definition.loc⟩ : Access)]? = some inst ∧
      state.2.root inst = state.2.root definition.inst

namespace Linked

variable {dest : Inst → Option Loc} {seen : Definition → Inst → Prop}
  {state : Std.ExtTreeMap Access Inst × DisjointSets .inst}

theorem start : Linked dest (fun _ _ => False) (∅, {}) where
  ordered := DisjointSets.Ordered.empty
  dest_root inst := by rw [DisjointSets.root_empty]
  dest_first h := by cases h
  first h := h.elim

/-- One more read of a definition. -/
theorem link (h : Linked dest seen state) {definition : Definition}
    (hdest : dest definition.inst = some definition.loc) (read : Inst) :
    Linked dest (fun other use => seen other use ∨ (other = definition ∧ use = read))
      (Webs.link definition state read) := by
  obtain ⟨first, sets⟩ := state
  rw [Webs.link]
  cases hfirst : first[(⟨read, definition.loc⟩ : Access)]? with
  | none =>
      -- the first read of the access: no other definition has it yet
      refine ⟨h.ordered, h.dest_root, fun {access inst} hinst => ?_, fun {other use} hseen => ?_⟩
      · rw [Maps.getElem?_insert] at hinst
        split at hinst
        · next heq => cases hinst; exact heq ▸ hdest
        · exact h.dest_first hinst
      · rcases hseen with hold | ⟨rfl, rfl⟩
        · obtain ⟨inst, hinst, hroot⟩ := h.first hold
          refine ⟨inst, ?_, hroot⟩
          rw [Maps.getElem?_insert_ne]
          · exact hinst
          · intro heq
            dsimp only at hinst
            rw [heq, hfirst] at hinst
            cases hinst
        · exact ⟨_, Std.ExtTreeMap.getElem?_insert_self, rfl⟩
  | some other =>
      -- the access was read before, by a definition of the same location
      have hother : dest other = some definition.loc := h.dest_first hfirst
      obtain ⟨hordered, hroot⟩ := DisjointSets.root_union h.ordered other definition.inst
      refine ⟨hordered, fun inst => ?_, h.dest_first, fun {known use} hseen => ?_⟩
      · dsimp only
        rw [hroot inst]
        split
        · next hmerged =>
            -- both sides are definitions of one location
            have hinst : dest inst = some definition.loc := by
              rw [← h.dest_root inst]
              rcases hmerged with heq | heq
              · rw [heq, h.dest_root, hother]
              · rw [heq, h.dest_root, hdest]
            rcases DisjointSets.least_cases (sets.root other) (sets.root definition.inst) with
              ⟨heq, -⟩ | ⟨heq, -⟩
            · rw [heq, h.dest_root, hother, hinst]
            · rw [heq, h.dest_root, hdest, hinst]
        · exact h.dest_root inst
      · rcases hseen with hold | ⟨rfl, rfl⟩
        · obtain ⟨inst, hinst, heq⟩ := h.first hold
          exact ⟨inst, hinst, DisjointSets.root_union_mono h.ordered _ _ heq⟩
        · exact ⟨other, hfirst, DisjointSets.root_union_self h.ordered _ _⟩

/-- All reads of a definition. -/
theorem links (h : Linked dest seen state) {definition : Definition}
    (hdest : dest definition.inst = some definition.loc) (reads : List Inst) :
    Linked dest (fun other use => seen other use ∨ (other = definition ∧ use ∈ reads))
      (reads.foldl (Webs.link definition) state) := by
  induction reads generalizing seen state with
  | nil =>
      refine ⟨h.ordered, h.dest_root, h.dest_first, fun hseen => h.first (hseen.resolve_right ?_)⟩
      rintro ⟨-, hmem⟩
      cases hmem
  | cons read reads ih =>
      have hnext := ih (h.link hdest read)
      refine ⟨hnext.ordered, hnext.dest_root, hnext.dest_first, fun hseen => hnext.first ?_⟩
      rcases hseen with hold | ⟨rfl, hmem⟩
      · exact Or.inl (Or.inl hold)
      · rcases List.mem_cons.mp hmem with rfl | hmem
        · exact Or.inl (Or.inr ⟨rfl, rfl⟩)
        · exact Or.inr ⟨rfl, hmem⟩

/-- All definitions. -/
theorem all {defs : List Definition}
    (hdest : ∀ definition ∈ defs, dest definition.inst = some definition.loc)
    (h : Linked dest seen state) :
    Linked dest (fun other use => seen other use ∨ (other ∈ defs ∧ use ∈ other.reads))
      (defs.foldl (fun state definition => definition.reads.foldl (Webs.link definition) state)
        state) := by
  induction defs generalizing seen state with
  | nil =>
      refine ⟨h.ordered, h.dest_root, h.dest_first, fun hseen => h.first (hseen.resolve_right ?_)⟩
      rintro ⟨hmem, -⟩
      cases hmem
  | cons definition defs ih =>
      have hnext := ih (fun other hother => hdest other (List.mem_cons_of_mem _ hother))
        (h.links (hdest definition List.mem_cons_self) definition.reads)
      refine ⟨hnext.ordered, hnext.dest_root, hnext.dest_first, fun hseen => hnext.first ?_⟩
      rcases hseen with hold | ⟨hmem, huse⟩
      · exact Or.inl (Or.inl hold)
      · rcases List.mem_cons.mp hmem with rfl | hmem
        · exact Or.inl (Or.inr ⟨rfl, huse⟩)
        · exact Or.inr ⟨hmem, huse⟩

end Linked

/-- Sets of definitions: those of one location that share a read are together,
    and definitions of different locations are apart. -/
structure Partitions (sets : DisjointSets .inst) (defs : List Definition) : Prop where
  shared : ∀ {a b : Definition} {read : Inst}, a ∈ defs → b ∈ defs → a.loc = b.loc →
    read ∈ a.reads → read ∈ b.reads → sets.root a.inst = sets.root b.inst
  apart : ∀ {a b : Definition}, a ∈ defs → b ∈ defs → sets.root a.inst = sets.root b.inst →
    a.loc = b.loc

/-- **SHARED READS LINK DEFINITIONS**. -/
theorem linkedDefinitions_partitions {defs : List Definition} {dest : Inst → Option Loc}
    (hdest : ∀ definition ∈ defs, dest definition.inst = some definition.loc) :
    Partitions (linkedDefinitions defs) defs := by
  have h := Linked.start.all hdest
  refine ⟨fun {a b read} ha hb hloc hread hread' => ?_, fun {a b} ha hb hroot => ?_⟩
  · obtain ⟨inst, hinst, hroot⟩ := h.first (Or.inr ⟨ha, hread⟩)
    obtain ⟨inst', hinst', hroot'⟩ := h.first (Or.inr ⟨hb, hread'⟩)
    rw [hloc, hinst'] at hinst
    cases hinst
    exact hroot.symm.trans hroot'
  · have ha' := h.dest_root a.inst
    have hb' := h.dest_root b.inst
    rw [hdest a ha] at ha'
    rw [hdest b hb] at hb'
    have hroot' : dest ((linkedDefinitions defs).root a.inst) =
        dest ((linkedDefinitions defs).root b.inst) := congrArg dest hroot
    exact Option.some.inj (ha'.symm.trans (hroot'.trans hb'))

/-- The definitions of a body write the locations that their statements name. -/
theorem partitions_of_defines {defs : List Definition}
    (hdefines : ∀ d ∈ defs, Defines body liveness d) :
    Partitions (linkedDefinitions defs) defs := by
  refine @linkedDefinitions_partitions defs
    (fun inst => (body.command? inst).bind body.trackedDest?) fun d hd => ?_
  obtain ⟨command, hcommand, hdest⟩ := (hdefines d hd).dest
  rw [hcommand, Option.bind_some, hdest]

/-! ## Looking accesses up -/

/-- The location of a web. -/
def loc? (webs : Webs) (key : WebKey) : Option Loc := webs.webs[key.index]?.map Web.loc

/-- A web lists a definition. -/
def HasDef (webs : Webs) (key : WebKey) (inst : Inst) : Prop :=
  ∃ web, webs.webs[key.index]? = some web ∧ inst ∈ web.defs

/-- A web lists a read of its location. -/
def HasUse (webs : Webs) (key : WebKey) (access : Access) : Prop :=
  ∃ web, webs.webs[key.index]? = some web ∧ web.loc = access.loc ∧ access.inst ∈ web.uses

/-- Accesses are looked up where they are listed. -/
structure Indexed (webs : Webs) : Prop where
  byDef : ∀ {inst : Inst} {key : WebKey}, webs.byDef[inst]? = some key ↔ webs.HasDef key inst
  byUse : ∀ {access : Access} {key : WebKey}, webs.byUse[access]? = some key ↔
    webs.HasUse key access

theorem Indexed.empty : Indexed {} where
  byDef {inst key} := by
    constructor
    · intro h
      cases h
    · rintro ⟨web, h, -⟩
      cases h
  byUse {access key} := by
    constructor
    · intro h
      cases h
    · rintro ⟨web, h, -⟩
      cases h

section

variable {webs : Webs} {loc : Loc}

/-- A new web comes behind the others. -/
theorem getElem?_newWeb {index : Nat} : (webs.newWeb loc).2.webs[index]? =
    if index = webs.webs.size then some { loc } else webs.webs[index]? := Array.getElem?_push

/-- A new web has the location it was made for. -/
theorem loc?_newWeb_self : (webs.newWeb loc).2.loc? (webs.newWeb loc).1 = some loc := by
  rw [loc?, getElem?_newWeb]
  exact congrArg (Option.map Web.loc) (if_pos rfl)

/-- The webs there were keep their locations. -/
theorem loc?_newWeb {key : WebKey} {old : Loc} (h : webs.loc? key = some old) :
    (webs.newWeb loc).2.loc? key = some old := by
  obtain ⟨web, hweb, -⟩ := Option.map_eq_some_iff.mp h
  rw [loc?, getElem?_newWeb, if_neg (Nat.ne_of_lt (Array.getElem?_eq_some_iff.mp hweb).1)]
  exact h

/-- A web is the new one or was there before. -/
theorem loc?_newWeb_cases {other : Loc} {key : WebKey}
    (h : (webs.newWeb loc).2.loc? key = some other) :
    (key = (webs.newWeb loc).1 ∧ loc = other) ∨ webs.loc? key = some other := by
  rw [loc?, getElem?_newWeb] at h
  split at h
  · next heq => exact Or.inl ⟨congrArg Key.mk heq, Option.some.inj h⟩
  · exact Or.inr h

theorem loc?_newWeb_fst : webs.loc? (webs.newWeb loc).1 = none := by
  rw [loc?]
  exact congrArg (Option.map Web.loc) (Array.getElem?_eq_none (Nat.le_refl _))

/-- A new web has no accesses. -/
theorem hasDef_newWeb {key : WebKey} {inst : Inst} :
    (webs.newWeb loc).2.HasDef key inst ↔ webs.HasDef key inst := by
  rw [HasDef, getElem?_newWeb, HasDef]
  split
  · next heq =>
      rw [heq, Array.getElem?_eq_none (Nat.le_refl _)]
      constructor
      · rintro ⟨web, hweb, hmem⟩
        cases hweb
        exact absurd hmem Std.ExtTreeSet.not_mem_empty
      · rintro ⟨web, hweb, -⟩
        cases hweb
  · exact Iff.rfl

theorem hasUse_newWeb {key : WebKey} {access : Access} :
    (webs.newWeb loc).2.HasUse key access ↔ webs.HasUse key access := by
  rw [HasUse, getElem?_newWeb, HasUse]
  split
  · next heq =>
      rw [heq, Array.getElem?_eq_none (Nat.le_refl _)]
      constructor
      · rintro ⟨web, hweb, -, hmem⟩
        cases hweb
        exact absurd hmem Std.ExtTreeSet.not_mem_empty
      · rintro ⟨web, hweb, -⟩
        cases hweb
  · exact Iff.rfl

theorem Indexed.newWeb (h : Indexed webs) (loc : Loc) : Indexed (webs.newWeb loc).2 where
  byDef := h.byDef.trans hasDef_newWeb.symm
  byUse := h.byUse.trans hasUse_newWeb.symm

end

/-- Adds definitions and reads of a location to a web. -/
def extend (webs : Webs) (key : WebKey) (loc : Loc) (defs uses : List Inst) : Webs where
  webs := webs.webs.modify key.index fun web =>
    { web with defs := defs.foldl (·.insert ·) web.defs, uses := uses.foldl (·.insert ·) web.uses }
  byDef := defs.foldl (fun byDef inst => byDef.insert inst key) webs.byDef
  byUse := uses.foldl (fun byUse inst => byUse.insert ⟨inst, loc⟩ key) webs.byUse

section

variable {webs : Webs} {key : WebKey} {loc : Loc} {defs uses : List Inst}

theorem byDef_extend {inst : Inst} : (webs.extend key loc defs uses).byDef[inst]? =
    if inst ∈ defs then some key else webs.byDef[inst]? := Maps.getElem?_foldl_insert

theorem byUse_extend {access : Access} : (webs.extend key loc defs uses).byUse[access]? =
    if access.loc = loc ∧ access.inst ∈ uses then some key else webs.byUse[access]? := by
  have hmap : (webs.extend key loc defs uses).byUse =
      (uses.map fun inst => Access.mk inst loc).foldl
      (fun byUse access => byUse.insert access key) webs.byUse := by
    rw [List.foldl_map]
    rfl
  have hmem : (access ∈ uses.map fun inst => Access.mk inst loc) ↔
      access.loc = loc ∧ access.inst ∈ uses := by
    rw [List.mem_map]
    constructor
    · rintro ⟨inst, hinst, rfl⟩
      exact ⟨rfl, hinst⟩
    · rintro ⟨rfl, hinst⟩
      exact ⟨access.inst, hinst, rfl⟩
  rw [hmap, Maps.getElem?_foldl_insert]
  simp only [hmem]

/-- Only the web itself changes. -/
theorem getElem?_extend (other : WebKey) : (webs.extend key loc defs uses).webs[other.index]? =
    webs.webs[other.index]?.map fun web => if other = key then
      { web with
        defs := defs.foldl (·.insert ·) web.defs
        uses := uses.foldl (·.insert ·) web.uses }
    else web := by
  show (webs.webs.modify key.index _)[other.index]? = _
  rw [Array.getElem?_modify]
  by_cases heq : other = key
  · subst heq
    simp only [if_true]
  · have hne : key.index ≠ other.index := fun h => heq (congrArg Key.mk h.symm)
    simp only [if_neg hne, if_neg heq, Option.map_id']

theorem loc?_extend (other : WebKey) :
    (webs.extend key loc defs uses).loc? other = webs.loc? other := by
  rw [loc?, getElem?_extend, Option.map_map, loc?]
  congr 1
  funext web
  show (if other = key then _ else web : Web).loc = web.loc
  split <;> rfl

theorem hasDef_extend (hkey : webs.loc? key = some loc) {other : WebKey} {inst : Inst} :
    (webs.extend key loc defs uses).HasDef other inst ↔
      webs.HasDef other inst ∨ (other = key ∧ inst ∈ defs) := by
  simp only [HasDef, getElem?_extend, Option.map_eq_some_iff]
  by_cases heq : other = key
  · subst heq
    simp only [if_true, true_and]
    constructor
    · rintro ⟨web, ⟨old, hold, rfl⟩, hmem⟩
      exact (Maps.set_mem_foldl_insert.mp hmem).imp (fun h => ⟨old, hold, h⟩) id
    · rintro (⟨old, hold, hmem⟩ | hmem)
      · exact ⟨_, ⟨old, hold, rfl⟩, Maps.set_mem_foldl_insert.mpr (Or.inl hmem)⟩
      · obtain ⟨web, hweb, -⟩ := Option.map_eq_some_iff.mp hkey
        exact ⟨_, ⟨web, hweb, rfl⟩, Maps.set_mem_foldl_insert.mpr (Or.inr hmem)⟩
  · simp only [heq, if_false, false_and, or_false, exists_eq_right]

/-- The uses of a web are the old ones and the added ones. -/
theorem hasUse_extend (hkey : webs.loc? key = some loc) {other : WebKey} {access : Access} :
    (webs.extend key loc defs uses).HasUse other access ↔ webs.HasUse other access ∨
      (other = key ∧ access.loc = loc ∧ access.inst ∈ uses) := by
  simp only [HasUse, getElem?_extend, Option.map_eq_some_iff]
  obtain ⟨web, hweb, hloc⟩ := Option.map_eq_some_iff.mp hkey
  by_cases heq : other = key
  · subst heq
    simp only [if_true, true_and]
    constructor
    · rintro ⟨new, ⟨old, hold, rfl⟩, hloc', hmem⟩
      rw [hweb] at hold
      cases hold
      exact (Maps.set_mem_foldl_insert.mp hmem).imp (fun h => ⟨_, hweb, hloc', h⟩)
        fun h => ⟨hloc'.symm.trans hloc, h⟩
    · rintro (⟨old, hold, hloc', hmem⟩ | ⟨hloc', hmem⟩)
      · exact ⟨_, ⟨old, hold, rfl⟩, hloc', Maps.set_mem_foldl_insert.mpr (Or.inl hmem)⟩
      · exact ⟨_, ⟨web, hweb, rfl⟩, hloc.trans hloc'.symm,
          Maps.set_mem_foldl_insert.mpr (Or.inr hmem)⟩
  · simp only [heq, if_false, false_and, or_false, exists_eq_right]

/-- Accesses that are in no other web are added. -/
theorem Indexed.extend (h : Indexed webs) (hkey : webs.loc? key = some loc)
    (hdefs : ∀ inst ∈ defs, ∀ other, webs.byDef[inst]? = some other → other = key)
    (huses : ∀ inst ∈ uses, ∀ other, webs.byUse[(⟨inst, loc⟩ : Access)]? = some other →
      other = key) : Indexed (webs.extend key loc defs uses) where
  byDef {inst other} := by
    -- a definition added is in this web only, the others stay where they were
    rw [hasDef_extend hkey, ← h.byDef, byDef_extend]
    by_cases hmem : inst ∈ defs
    · rw [if_pos hmem]
      constructor
      · intro heq
        exact Or.inr ⟨(Option.some.inj heq).symm, hmem⟩
      · rintro (hold | ⟨rfl, -⟩)
        · rw [hdefs inst hmem other hold]
        · rfl
    · simp only [hmem, if_false, and_false, or_false]
  byUse {access other} := by
    rw [hasUse_extend hkey, ← h.byUse, byUse_extend]
    by_cases hmem : access.loc = loc ∧ access.inst ∈ uses
    · rw [if_pos hmem]
      obtain ⟨rfl, hinst⟩ := hmem
      constructor
      · intro heq
        exact Or.inr ⟨(Option.some.inj heq).symm, rfl, hinst⟩
      · rintro (hold | ⟨rfl, -⟩)
        · rw [huses _ hinst other hold]
        · rfl
    · simp only [hmem, if_false, and_false, or_false]

end

/-! ## Grouping definitions -/

section

variable {sets : DisjointSets .inst} {roots : Std.ExtTreeMap Inst WebKey} {webs : Webs}
  {d : Definition}

theorem addDefinition_of_some {key : WebKey} (h : roots[sets.root d.inst]? = some key) :
    addDefinition sets (roots, webs) d = (roots, webs.extend key d.loc [d.inst] d.reads) := by
  simp only [addDefinition, h]
  rfl

theorem addDefinition_of_none (h : roots[sets.root d.inst]? = none) :
    addDefinition sets (roots, webs) d =
      (roots.insert (sets.root d.inst) (webs.newWeb d.loc).1,
        (webs.newWeb d.loc).2.extend (webs.newWeb d.loc).1 d.loc [d.inst] d.reads) := by
  simp only [addDefinition, h]
  rfl

end

/-- The webs of the definitions gone through so far; `roots` has the web of each
    set of definitions. -/
structure Grouped (sets : DisjointSets .inst) (all seen : List Definition)
    (roots : Std.ExtTreeMap Inst WebKey) (webs : Webs) : Prop where
  indexed : Indexed webs
  rooted : ∀ {root : Inst} {key : WebKey}, roots[root]? = some key →
    ∃ d ∈ all, sets.root d.inst = root ∧ webs.loc? key = some d.loc
  member : ∀ d ∈ seen, d ∈ all ∧ ∃ key, roots[sets.root d.inst]? = some key ∧
    webs.byDef[d.inst]? = some key ∧
      ∀ read ∈ d.reads, webs.byUse[(⟨read, d.loc⟩ : Access)]? = some key
  byDef : ∀ {inst : Inst} {key : WebKey}, webs.byDef[inst]? = some key →
    ∃ d ∈ seen, d.inst = inst
  byUse : ∀ {access : Access} {key : WebKey}, webs.byUse[access]? = some key →
    ∃ d ∈ seen, d.loc = access.loc ∧ access.inst ∈ d.reads

namespace Grouped

variable {sets : DisjointSets .inst} {all seen : List Definition}
  {roots : Std.ExtTreeMap Inst WebKey} {webs : Webs}

theorem start : Grouped sets all [] ∅ {} where
  indexed := Indexed.empty
  rooted h := by cases h
  member d h := by cases h
  byDef h := by cases h
  byUse h := by cases h

/-- A web for a set that has none. -/
theorem newWeb (h : Grouped sets all seen roots webs) {d : Definition} (hall : d ∈ all)
    (hroot : roots[sets.root d.inst]? = none) :
    Grouped sets all seen (roots.insert (sets.root d.inst) (webs.newWeb d.loc).1)
      (webs.newWeb d.loc).2 where
  indexed := h.indexed.newWeb d.loc
  rooted {root key} hkey := by
    rw [Maps.getElem?_insert] at hkey
    split at hkey
    · next heq =>
        cases hkey
        exact ⟨d, hall, heq, loc?_newWeb_self⟩
    · obtain ⟨other, hother, heq, hloc⟩ := h.rooted hkey
      exact ⟨other, hother, heq, loc?_newWeb hloc⟩
  member other hother := by
    obtain ⟨hmem, key, hkey, hfound⟩ := h.member other hother
    refine ⟨hmem, key, ?_, hfound⟩
    -- the set had no web, so it is not the set of any definition seen
    rw [Maps.getElem?_insert_ne]
    · exact hkey
    · intro heq
      rw [heq, hroot] at hkey
      cases hkey
  byDef := h.byDef
  byUse := h.byUse

/-- A definition is added to the web of its set. -/
theorem extend (h : Grouped sets all seen roots webs) (hsets : Partitions sets all)
    {d : Definition} (hall : d ∈ all) {key : WebKey} (hkey : roots[sets.root d.inst]? = some key) :
    Grouped sets all (d :: seen) roots (webs.extend key d.loc [d.inst] d.reads) := by
  have hloc : webs.loc? key = some d.loc := by
    obtain ⟨other, hother, hroot, hloc⟩ := h.rooted hkey
    rw [hloc, hsets.apart hother hall hroot]
  -- a definition with a common access is in the same set
  have hsame : ∀ other ∈ seen, sets.root other.inst = sets.root d.inst →
      roots[sets.root other.inst]? = some key := by
    intro other _ hroot
    rw [hroot, hkey]
  have hshared : ∀ other ∈ seen, other.loc = d.loc → ∀ read ∈ other.reads, read ∈ d.reads →
      roots[sets.root other.inst]? = some key := by
    intro other hother heq read hread hread'
    exact hsame other hother (hsets.shared (h.member other hother).1 hall heq hread hread')
  refine ⟨h.indexed.extend hloc ?_ ?_, ?_, ?_, ?_, ?_⟩
  -- a definition listed before is in the web of its set
  · intro inst hinst other hother
    rw [List.mem_singleton] at hinst
    obtain ⟨known, hknown, rfl⟩ := h.byDef hother
    obtain ⟨-, key', hkey', hdef, -⟩ := h.member known hknown
    rw [hinst, hkey] at hkey'
    cases hkey'
    exact Option.some.inj (hother.symm.trans hdef)
  · intro read hread other hother
    obtain ⟨known, hknown, hloc', hread'⟩ := h.byUse hother
    obtain ⟨-, key', hkey', -, huse⟩ := h.member known hknown
    rw [hshared known hknown hloc' read hread' hread] at hkey'
    cases hkey'
    have huse' := huse read hread'
    rw [hloc'] at huse'
    exact Option.some.inj (hother.symm.trans huse')
  · intro root key' hkey'
    obtain ⟨other, hother, hroot, hloc'⟩ := h.rooted hkey'
    exact ⟨other, hother, hroot, (loc?_extend key').trans hloc'⟩
  · intro other hother
    rcases List.mem_cons.mp hother with rfl | hother
    · refine ⟨hall, key, hkey, ?_, fun read hread => ?_⟩
      · rw [byDef_extend, if_pos (List.mem_singleton_self _)]
      · rw [byUse_extend, if_pos ⟨rfl, hread⟩]
    · obtain ⟨hmem, key', hkey', hdef, huse⟩ := h.member other hother
      refine ⟨hmem, key', hkey', ?_, fun read hread => ?_⟩
      · rw [byDef_extend]
        split
        · next heq =>
            rw [List.mem_singleton] at heq
            rw [heq, hkey] at hkey'
            exact hkey'
        · exact hdef
      · rw [byUse_extend]
        split
        · next hmem' =>
            rw [hshared other hother hmem'.1 read hread hmem'.2] at hkey'
            exact hkey'
        · exact huse read hread
  · intro inst key' hkey'
    rw [byDef_extend] at hkey'
    split at hkey'
    · next heq => exact ⟨d, List.mem_cons_self, (List.mem_singleton.mp heq).symm⟩
    · obtain ⟨other, hother, heq⟩ := h.byDef hkey'
      exact ⟨other, List.mem_cons_of_mem d hother, heq⟩
  · intro access key' hkey'
    rw [byUse_extend] at hkey'
    split at hkey'
    · next heq => exact ⟨d, List.mem_cons_self, heq.1.symm, heq.2⟩
    · obtain ⟨other, hother, heq⟩ := h.byUse hkey'
      exact ⟨other, List.mem_cons_of_mem d hother, heq⟩

/-- One definition more. -/
theorem add (h : Grouped sets all seen roots webs) (hsets : Partitions sets all) {d : Definition}
    (hall : d ∈ all) : Grouped sets all (d :: seen) (addDefinition sets (roots, webs) d).1
      (addDefinition sets (roots, webs) d).2 := by
  cases hroot : roots[sets.root d.inst]? with
  | none =>
      rw [addDefinition_of_none hroot]
      exact (h.newWeb hall hroot).extend hsets hall Std.ExtTreeMap.getElem?_insert_self
  | some key =>
      rw [addDefinition_of_some hroot]
      exact h.extend hsets hall hroot

/-- All definitions are added, each to the web of its set. -/
theorem addAll (hsets : Partitions sets all) {defs : List Definition}
    (hall : ∀ d ∈ defs, d ∈ all) {state : Std.ExtTreeMap Inst WebKey × Webs}
    (h : Grouped sets all seen state.1 state.2) :
    Grouped sets all (defs.reverse ++ seen) (defs.foldl (addDefinition sets) state).1
      (defs.foldl (addDefinition sets) state).2 := by
  induction defs generalizing seen state with
  | nil => exact h
  | cons d defs ih =>
      rw [List.reverse_cons, List.append_assoc, List.foldl_cons]
      exact ih (fun other hother => hall other (List.mem_cons_of_mem d hother))
        (h.add hsets (hall d List.mem_cons_self))

end Grouped

/-! ## Reads that nothing reaches -/

/-- Webs with more reads than before; `defless` has the web of each location
    that has no definitions. -/
structure Completed (before : Webs) (reads : List Access) (defless : Std.ExtTreeMap Loc WebKey)
    (webs : Webs) : Prop where
  indexed : Indexed webs
  unreached : ∀ {loc : Loc} {key : WebKey}, defless[loc]? = some key → webs.loc? key = some loc
  loc : ∀ {key : WebKey} {loc : Loc}, before.loc? key = some loc → webs.loc? key = some loc
  byDef : webs.byDef = before.byDef
  kept : ∀ {access : Access} {key : WebKey}, before.byUse[access]? = some key →
    webs.byUse[access]? = some key
  byUse : ∀ {access : Access} {key : WebKey}, webs.byUse[access]? = some key →
    before.byUse[access]? = some key ∨ access ∈ reads

namespace Completed

variable {before webs : Webs} {reads : List Access} {defless : Std.ExtTreeMap Loc WebKey}

theorem start (h : Indexed before) : Completed before reads ∅ before where
  indexed := h
  unreached h := by cases h
  loc h := h
  byDef := rfl
  kept h := h
  byUse h := Or.inl h

/-- A web for a location that has none. -/
theorem newWeb (h : Completed before reads defless webs) (loc : Loc) :
    Completed before reads (defless.insert loc (webs.newWeb loc).1) (webs.newWeb loc).2 where
  indexed := h.indexed.newWeb loc
  unreached {other key} hkey := by
    rw [Maps.getElem?_insert] at hkey
    split at hkey
    · next heq =>
        cases hkey
        exact heq ▸ loc?_newWeb_self
    · exact loc?_newWeb (h.unreached hkey)
  loc hloc := loc?_newWeb (h.loc hloc)
  byDef := h.byDef
  kept := h.kept
  byUse := h.byUse

/-- A read that is in no web is added to the web of its location. -/
theorem extend (h : Completed before reads defless webs) {read : Access} (hread : read ∈ reads)
    (hnone : webs.byUse[read]? = none) {key : WebKey} (hkey : defless[read.loc]? = some key) :
    Completed before reads defless (webs.extend key read.loc [] [read.inst]) where
  indexed := by
    refine h.indexed.extend (h.unreached hkey) (fun _ hinst => by cases hinst) ?_
    intro inst hinst other hother
    rw [List.mem_singleton.mp hinst, hnone] at hother
    cases hother
  unreached hloc := (loc?_extend _).trans (h.unreached hloc)
  loc hloc := (loc?_extend _).trans (h.loc hloc)
  byDef := h.byDef
  -- the read was in no web, so its entry overwrites none
  kept {access key'} hold := by
    rw [byUse_extend]
    split
    · next hmem =>
        obtain ⟨inst, loc⟩ := access
        obtain ⟨rfl, hinst⟩ := hmem
        obtain rfl := List.mem_singleton.mp hinst
        rw [h.kept hold] at hnone
        cases hnone
    · exact h.kept hold
  byUse {access key'} hkey' := by
    rw [byUse_extend] at hkey'
    split at hkey'
    · next hmem =>
        obtain ⟨inst, loc⟩ := access
        obtain ⟨rfl, hinst⟩ := hmem
        obtain rfl := List.mem_singleton.mp hinst
        exact Or.inr hread
    · exact h.byUse hkey'

/-- One read more. -/
theorem add (h : Completed before reads defless webs) {read : Access}
    (hread : body.tracks read.loc = true → read ∈ reads)
    (hloc : read.loc.index < body.locations.size) : ∃ after,
      addUnreached body (defless, webs) read = .ok after ∧
        Completed before reads after.1 after.2 := by
  rw [addUnreached, Body.isTracked_eq hloc]
  simp only [bind, Except.bind]
  split
  · exact ⟨_, rfl, h⟩
  · next hnot =>
      rw [Bool.or_eq_true, not_or, Bool.not_eq_true, Bool.not_eq_true, Bool.not_eq_false'] at hnot
      have hread := hread hnot.1
      have hnone : webs.byUse[read]? = none :=
        Std.ExtTreeMap.getElem?_eq_none_of_contains_eq_false hnot.2
      cases hkey : defless[read.loc]? with
      | none =>
          exact ⟨_, rfl, (h.newWeb read.loc).extend hread hnone Std.ExtTreeMap.getElem?_insert_self⟩
      | some key => exact ⟨_, rfl, h.extend hread hnone hkey⟩

end Completed

/-! ## The webs of a body -/

/-- The webs of a body: every definition of a tracked location is in a web of its
    location, together with all the reads that it reaches. -/
structure Computed (body : Body) (liveness : Liveness) (webs : Webs) : Prop where
  indexed : Indexed webs
  definition : ∀ {stmt : Inst} {command : Command} {loc : Loc}, stmt ∈ body.stmts →
    body.command? stmt = some command → body.trackedDest? command = some loc →
    ∃ key, webs.byDef[stmt]? = some key ∧ webs.loc? key = some loc ∧
      ∀ read ∈ liveness.reachedBy stmt, webs.byUse[(⟨read, loc⟩ : Access)]? = some key
  byDef : ∀ {stmt : Inst} {key : WebKey}, webs.byDef[stmt]? = some key → stmt ∈ body.stmts ∧
    ∃ command loc, body.command? stmt = some command ∧ body.trackedDest? command = some loc
  byUse : ∀ {access : Access} {key : WebKey}, webs.byUse[access]? = some key →
    access ∈ body.allReads ∧ body.tracks access.loc = true

/-- **WEBS ARE ALWAYS COMPUTED** for a well-formed body. -/
theorem compute_ok (wf : WellFormed body) (h : liveness.Computed body graph) :
    ∃ webs, compute body liveness = .ok webs ∧ Computed body liveness webs := by
  obtain ⟨defs, hdefs, hmem⟩ := definitions_ok wf h
  have hsets := partitions_of_defines fun d hd => (hmem d).mp hd
  -- definitions are put into webs first, then the reads that no web holds yet
  obtain ⟨⟨roots, grouped⟩, hfold⟩ :
      ∃ state, defs.foldl (addDefinition (linkedDefinitions defs)) (∅, {}) = state := ⟨_, rfl⟩
  have hgrouped : Grouped (linkedDefinitions defs) defs (defs.reverse ++ []) roots grouped := by
    have hall := @Grouped.addAll _ _ _ hsets defs (fun d hd => hd) (∅, {}) Grouped.start
    rw [hfold] at hall
    exact hall
  obtain ⟨⟨defless, webs⟩, hwebs, hcompleted⟩ : ∃ state,
      body.allReads.foldlM (addUnreached body) (∅, grouped) = .ok state ∧
        Completed grouped (body.allReads.filter (body.tracks ·.loc)) state.1 state.2 :=
    Checked.foldlM_ok (fun (state : Std.ExtTreeMap Loc WebKey × Webs) =>
        Completed grouped (body.allReads.filter (body.tracks ·.loc)) state.1 state.2)
      (Completed.start hgrouped.indexed)
      fun state read hread hstate => hstate.add
        (fun htracks => List.mem_filter.mpr ⟨hread, htracks⟩) (wf.loc_of_mem_allReads hread)
  refine ⟨webs, ?_, hcompleted.indexed, ?_, ?_, ?_⟩
  · rw [compute, hdefs]
    show (body.stmts.mapM body.reads >>= fun reads => _) = _
    rw [wf.mapM_reads, hfold]
    show (body.allReads.foldlM (addUnreached body) (∅, grouped) >>= fun state => _) = _
    rw [hwebs]
    rfl
  · intro stmt command loc hstmt hcommand hdest
    have hd := (hmem ⟨stmt, loc, liveness.reachedBy stmt⟩).mpr
      ⟨hstmt, ⟨command, hcommand, hdest⟩, rfl⟩
    obtain ⟨-, key, hkey, hdef, huse⟩ := hgrouped.member _
      (List.mem_append_left [] (List.mem_reverse.mpr hd))
    obtain ⟨other, hother, hroot, hloc⟩ := hgrouped.rooted hkey
    have hsame : other.loc = loc := hsets.apart hother hd hroot
    refine ⟨key, ?_, hcompleted.loc (hsame ▸ hloc), fun read hread => ?_⟩
    · rw [hcompleted.byDef]
      exact hdef
    · exact hcompleted.kept (huse read hread)
  · intro stmt key hkey
    rw [hcompleted.byDef] at hkey
    obtain ⟨d, hd, rfl⟩ := hgrouped.byDef hkey
    rw [List.append_nil, List.mem_reverse, hmem] at hd
    obtain ⟨command, hcommand, hdest⟩ := hd.dest
    exact ⟨hd.stmt, command, d.loc, hcommand, hdest⟩
  · intro access key hkey
    rcases hcompleted.byUse hkey with hkey | hread
    · obtain ⟨d, hd, hloc, hread⟩ := hgrouped.byUse hkey
      rw [List.append_nil, List.mem_reverse, hmem] at hd
      obtain ⟨command, hcommand, hdest⟩ := hd.dest
      obtain ⟨live, hlive, hwithin⟩ := h.reached_ok wf hd.stmt hcommand
      rw [hd.reads, Liveness.reachedBy, hlive, hdest, hloc] at hread
      exact ⟨hwithin access (LiveReads.mem_readers.mp hread),
        hloc ▸ (Body.trackedDest?_eq_some.mp hdest).2⟩
    · exact List.mem_filter.mp hread

end DecafBackend.Webs
