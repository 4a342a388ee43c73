import DecafBackend.Proofs.CommonTermsFacts

/-! # The changes that are found

    The facts that a block starts with hold on every path into it, once the
    temporaries of one set are taken for one.  Temporaries are put into one set
    only if they are for one term and exposed.

    * `Relates`, `Related` — temporaries that may become one
    * `mergeInputs_spec` — the facts at the start of a block
    * `Edit.slot`, `About` — every save is changed in two ways at most
    * `Visit`, `findEdits_ok` — the walks that the changes come from -/

namespace DecafBackend

/-- The save that an edit changes, and the way in which it does. -/
def Edit.slot : Edit → Inst × Bool
  | .reuse save _ => (save, true)
  | .remember save _ => (save, false)

/-- A body that no pass has given a temporary. -/
def Body.HasNoTemp (body : Body) : Prop := ∀ i : Nat, body.locations[i]? ≠ some Location.temp

namespace CommonTerms

open Available (Coarser Unified Joined Merged)

variable {original body : Body} {temps : Std.ExtTreeMap Inst Loc}

/-! ## Meeting paths -/

/-- Two temporaries that are for one term and exposed. -/
structure Related (original body : Body) (temps : Std.ExtTreeMap Inst Loc) (x y : Loc) : Prop where
  left : original.locations.size ≤ x.index
  right : original.locations.size ≤ y.index
  term : ∃ term, KeyOf body temps x term ∧ KeyOf body temps y term ∧
    Exposed body temps x term ∧ Exposed body temps y term

/-- What is related is related the other way. -/
theorem Related.symm {x y : Loc} (h : Related original body temps x y) :
    Related original body temps y x := by
  obtain ⟨hx, hy, term, hkx, hky, hex, hey⟩ := h
  exact ⟨hy, hx, term, hky, hkx, hey, hex⟩

/-- What is related to the same term is related. -/
theorem Related.trans (hsited : Sited original body temps) {x y z : Loc}
    (h₁ : Related original body temps x y) (h₂ : Related original body temps y z) :
    Related original body temps x z := by
  obtain ⟨hx, hy, term, hkx, hky, hex, hey⟩ := h₁
  obtain ⟨-, hz, term', hky', hkz, -, hez⟩ := h₂
  cases hky.unique hsited hky'
  exact ⟨hx, hz, term, hkx, hkz, hex, hez⟩

/-- Another path comes in. -/
theorem merged_snoc {size : Nat} {related : Loc → Loc → Prop} {paths : List Available}
    {sets : DisjointSets .loc} {state next : DisjointSets .loc × Available} {other : Available}
    (h : Merged size related paths sets state)
    (hnext : Merged size related [state.2, other] state.1 next) :
    Merged size related (paths ++ [other]) sets next where
  coarser := h.coarser.trans hnext.coarser
  unified := hnext.unified
  indexed := hnext.indexed
  joined := by
    refine ⟨?_, ?_, ?_⟩
    · intro term hterm path hpath
      rcases List.mem_append.mp hpath with hpath | hpath
      · exact h.joined.has (hnext.joined.has hterm state.2 List.mem_cons_self) path hpath
      · exact hnext.joined.has hterm path (List.mem_cons_of_mem _ hpath)
    -- the merged facts stand for all the earlier paths, so their holders stand for holders
    · intro term loc hloc path hpath
      rcases List.mem_append.mp hpath with hpath | hpath
      · obtain ⟨middle, hmiddle, hroot⟩ :=
          hnext.joined.holds hloc state.2 List.mem_cons_self
        obtain ⟨holder, hholder, hroot'⟩ := h.joined.holds hmiddle path hpath
        exact ⟨holder, hholder, (hnext.coarser.2 hroot').trans hroot⟩
      · exact hnext.joined.holds hloc path (List.mem_cons_of_mem _ hpath)
    · intro term loc hloc
      obtain ⟨path, hpath, hholds⟩ := hnext.joined.origin hloc
      rcases List.mem_cons.mp hpath with rfl | hpath
      · obtain ⟨path, hpath, hholds⟩ := h.joined.origin hholds
        exact ⟨path, List.mem_append_left _ hpath, hholds⟩
      · exact ⟨path, List.mem_append_right _ hpath, hholds⟩

/-- Facts that are joined of paths flow as the paths do. -/
theorem flowing_of_joined {size : Nat} {paths : List Available} {sets fine : DisjointSets .loc}
    {facts : Available} {related : Loc → Loc → Prop} (hsize : size = body.locations.size)
    (h : Merged size related paths fine (sets, facts)) (hnonempty : paths ≠ [])
    (hpaths : ∀ path ∈ paths, Flowing original body temps [] path) :
    Flowing original body temps [] facts where
  indexed := hsize ▸ h.indexed
  operands hterm := by
    obtain ⟨path, hpath⟩ := List.exists_mem_of_ne_nil paths hnonempty
    exact (hpaths path hpath).operands (h.joined.has hterm path hpath)
  key hloc hnew := by
    obtain ⟨path, hpath, hholds⟩ := h.joined.origin hloc
    exact (hpaths path hpath).key hholds hnew
  exposed hloc hnew := by
    obtain ⟨path, hpath, hholds⟩ := h.joined.origin hloc
    exact (hpaths path hpath).exposed hholds hnew

/-- A temporary is one of the new locations. -/
theorem le_of_isTemp (hno : original.HasNoTemp)
    (hsited : Sited original body temps) {loc : Loc} (h : isTemp body loc = true) :
    original.locations.size ≤ loc.index := by
  refine Nat.le_of_not_lt fun hlt => hno loc.index ?_
  rw [← hsited.old hlt]
  exact eq_of_beq h

/-- A relation that temporaries are in if they hold one term on two paths. -/
structure Relates (original body : Body) (temps : Std.ExtTreeMap Inst Loc)
    (related : Loc → Loc → Prop) : Prop where
  symm : ∀ x y, related x y → related y x
  trans : ∀ x y z, related x y → related y z → related x z
  temp : ∀ {x y : Loc}, related x y → body.locations[y.index]? = some .temp
  meets : ∀ {facts other : Available} {term : Term} {a b : Loc},
    Flowing original body temps [] facts → Flowing original body temps [] other →
    facts.Holds term a → other.Holds term b → isTemp body a = true → isTemp body b = true →
    related a b

/-- All temporaries of the analysis that hold one term are for this term. -/
theorem relates_related (hno : original.HasNoTemp) (hsited : Sited original body temps) :
    Relates original body temps (Related original body temps) where
  symm _ _ := Related.symm
  trans _ _ _ := Related.trans hsited
  temp h := by
    obtain ⟨-, -, term, -, ⟨site, -, -, hsite, -⟩, -⟩ := h
    exact hsited.temp_location hsite
  meets {_ _ term _ _} hfacts hother ha hb hta htb := by
    have hla := le_of_isTemp hno hsited hta
    have hlb := le_of_isTemp hno hsited htb
    exact ⟨hla, hlb, term, hfacts.key ha hla, hother.key hb hlb,
      (hfacts.exposed ha hla).resolve_right not_fresh_nil,
      (hother.exposed hb hlb).resolve_right not_fresh_nil⟩

/-- Whatever they hold, they are temporaries. -/
theorem relates_isTemp :
    Relates original body temps fun x y => isTemp body x = true ∧ isTemp body y = true where
  symm _ _ h := h.symm
  trans _ _ _ h₁ h₂ := ⟨h₁.1, h₂.2⟩
  temp h := eq_of_beq h.2
  meets _ _ _ _ hta htb := ⟨hta, htb⟩

/-- What a block may assume, when facts come in on some paths. -/
theorem mergeInputs_spec {related : Loc → Loc → Prop}
    (hrelates : Relates original body temps related)
    {sets : DisjointSets .loc} (hordered : sets.Ordered)
    (hunified : Unified related sets) {paths : List Available}
    (hpaths : ∀ path ∈ paths, Flowing original body temps [] path) :
    Coarser sets (mergeInputs body sets paths).1 ∧
      Unified related (mergeInputs body sets paths).1 ∧
      Flowing original body temps [] (mergeInputs body sets paths).2 ∧
      Joined paths (mergeInputs body sets paths).1 (mergeInputs body sets paths).2 := by
  cases paths with
  | nil =>
      exact ⟨Coarser.refl hordered, hunified, Flowing.empty,
        fun h => absurd h Available.not_has_empty,
        fun h => absurd h.has Available.not_has_empty,
        fun h => absurd h.has Available.not_has_empty⟩
  | cons first rest =>
      -- the first path stands for itself, and the others come in one after the other
      have hfold : ∀ {step : DisjointSets .loc × Available → Available →
            DisjointSets .loc × Available},
          (∀ state other, step state other =
            Available.meetMerging (isTemp body) state.1 state.2 other) →
          ∀ (rest done : List Available) (state : DisjointSets .loc × Available),
          done ≠ [] → (∀ path ∈ done ++ rest, Flowing original body temps [] path) →
          Merged body.locations.size related done sets state →
          Merged body.locations.size related (done ++ rest) sets
            (rest.foldl step state) := by
        intro step hstep rest
        induction rest with
        | nil =>
            intro done state _ _ h
            rw [List.append_nil]
            exact h
        | cons other rest ih =>
            intro done state hne hall h
            rw [List.append_cons] at hall ⊢
            have hother := hall other (by simp)
            have hfacts : Flowing original body temps [] state.2 :=
              flowing_of_joined rfl h hne fun path hpath =>
                hall path (List.mem_append_left _ (List.mem_append_left _ hpath))
            have hnext : Merged body.locations.size related
                [state.2, other] state.1
                (Available.meetMerging (isTemp body) state.1 state.2 other) := by
              refine Available.meetMerging_spec hrelates.symm hrelates.trans h.coarser.1 h.unified
                hfacts.indexed hother.indexed ?_
              exact fun ha hb hta htb => hrelates.meets hfacts hother ha hb hta htb
            rw [List.foldl_cons, hstep]
            exact ih (done ++ [other]) _ (by simp) hall (merged_snoc h hnext)
      have hfirst := hpaths first List.mem_cons_self
      have hstart : Merged body.locations.size related [first] sets
          (sets, first) := by
        refine ⟨Coarser.refl hordered, hunified, hfirst.indexed, ?_, ?_, ?_⟩
        · intro term hterm path hpath
          rw [List.mem_singleton.mp hpath]
          exact hterm
        · intro term loc hloc path hpath
          rw [List.mem_singleton.mp hpath]
          exact ⟨loc, hloc, rfl⟩
        · intro term loc hloc
          exact ⟨first, List.mem_cons_self, hloc⟩
      have hmerged : Merged body.locations.size related ([first] ++ rest)
          sets (mergeInputs body sets (first :: rest)) :=
        hfold (fun _ _ => rfl) rest [first] (sets, first) (by simp) hpaths hstart
      exact ⟨hmerged.coarser, hmerged.unified,
        flowing_of_joined rfl hmerged (by simp) hpaths, hmerged.joined⟩

/-! ## Changes to single saves -/

/-- Edits that change some statements, each of them at most once in each way. -/
structure About (stmts : List Inst) (edits : List Edit) : Prop where
  saves : ∀ edit ∈ edits, edit.slot.1 ∈ stmts
  distinct : (edits.map Edit.slot).Nodup
  length : edits.length ≤ 2 * stmts.length

/-- No changes are about any statements. -/
theorem About.nil (stmts : List Inst) : About stmts [] := ⟨nofun, List.nodup_nil, Nat.zero_le _⟩

/-- Changes of distinct statements come together. -/
theorem About.append {first second : List Inst} {before after : List Edit}
    (h₁ : About first before) (h₂ : About second after) (hnodup : (first ++ second).Nodup) :
    About (first ++ second) (before ++ after) where
  saves edit hedit := by
    rcases List.mem_append.mp hedit with hedit | hedit
    · exact List.mem_append_left _ (h₁.saves edit hedit)
    · exact List.mem_append_right _ (h₂.saves edit hedit)
  distinct := by
    rw [List.map_append, List.nodup_append]
    refine ⟨h₁.distinct, h₂.distinct, ?_⟩
    rintro slot hslot other hother rfl
    obtain ⟨a, ha, rfl⟩ := List.mem_map.mp hslot
    obtain ⟨b, hb, hsame⟩ := List.mem_map.mp hother
    have hb' := h₂.saves b hb
    rw [hsame] at hb'
    exact (List.nodup_append.mp hnodup).2.2 _ (h₁.saves a ha) _ hb' rfl
  length := by
    have := h₁.length
    have := h₂.length
    rw [List.length_append, List.length_append]
    omega

/-- The locations of an edit: what is reused exists, and what is remembered goes
    to the temporary of the save. -/
def Admits (body : Body) (temps : Std.ExtTreeMap Inst Loc) : Edit → Prop
  | .reuse _ source => source.index < body.locations.size
  | .remember save temp => temps[save]? = some temp

/-- The changes to a save of a term. -/
def newEdits (temps : Std.ExtTreeMap Inst Loc) (save : Inst) (term : Term) (dest : Loc)
    (source : Option Loc) : List Edit :=
  (source.map (Edit.reuse save)).toList ++
    if term.mentions dest then [] else (temps[save]?.map (Edit.remember save)).toList

/-- A save adds its own changes to those of the walk. -/
theorem saved_edits (walk : Walk) (save : Inst) (term : Term) (dest : Loc) (source : Option Loc) :
    (saved temps walk save term dest source).edits =
      walk.edits ++ newEdits temps save term dest source := by
  simp only [saved, newEdits, Walk.recordTerm]
  split
  · rw [List.append_nil]
  · split
    · next hnone =>
        rw [hnone]
        exact congrArg (walk.edits ++ ·) (List.append_nil _).symm
    · next temp hsome =>
        rw [hsome]
        exact List.append_assoc _ _ _

/-- A save is changed in its value at most once, and has one copy at most. -/
theorem about_newEdits (save : Inst) (term : Term) (dest : Loc) (source : Option Loc) :
    About [save] (newEdits temps save term dest source) := by
  rw [newEdits]
  cases source with
  | none =>
      split
      · exact About.nil _
      · cases temps[save]? with
        | none => exact About.nil _
        | some temp =>
            refine ⟨?_, by simp, by simp⟩
            intro edit hedit
            rw [List.mem_singleton.mp hedit]
            exact List.mem_cons_self
  | some source =>
      split
      · refine ⟨?_, by simp, by simp⟩
        intro edit hedit
        rw [List.mem_singleton.mp hedit]
        exact List.mem_cons_self
      · cases temps[save]? with
        | none =>
            refine ⟨?_, by simp, by simp⟩
            intro edit hedit
            rw [List.mem_singleton.mp hedit]
            exact List.mem_cons_self
        | some temp =>
            refine ⟨?_, by simp [Edit.slot], by simp⟩
            intro edit hedit
            rcases List.mem_cons.mp hedit with rfl | hedit
            · exact List.mem_cons_self
            · rw [List.mem_singleton.mp hedit]
              exact List.mem_cons_self

/-- A call changes nothing. -/
theorem Called.edits {stmt : Inst} {command : Command} {walk called : Walk}
    (h : Called body stmt command walk called) : called.edits = walk.edits := by
  cases h with
  | silent => rfl
  | outward => rfl

/-- A statement adds changes to itself only. -/
theorem Move.edits {stmt : Inst} {command : Command} {walk next : Walk}
    (h : Move body temps stmt command walk next)
    (hfacts : walk.facts.Indexed body.locations.size) (htable : walk.table.Bounded body) :
    ∃ new, next.edits = walk.edits ++ new ∧ About [stmt] new ∧
      ∀ edit ∈ new, Admits body temps edit ∧ command.dest?.isSome = true := by
  cases h with
  | idle hdest hcalled =>
      exact ⟨[], by rw [hcalled.edits, List.append_nil], About.nil _, nofun⟩
  | overwrite hsave hterm hcalled =>
      refine ⟨[], ?_, About.nil _, nofun⟩
      rw [List.append_nil]
      exact hcalled.edits
  | @term value dest term source hsave hterm hsource =>
      refine ⟨_, saved_edits walk stmt term dest source, about_newEdits stmt term dest source, ?_⟩
      intro edit hedit
      refine ⟨?_, by rw [hsave]; rfl⟩
      -- the change of the value loads a holder, the copy goes to the temporary of the site
      rcases List.mem_append.mp hedit with hedit | hedit
      · obtain ⟨holder, hholder, rfl⟩ := Option.map_eq_some_iff.mp (Option.mem_toList.mp hedit)
        rcases (hsource holder hholder).2 with hheld | hnumbered
        · exact hfacts.holder_lt (Available.mem_holdersOf.mp hheld)
        · rw [NumberTable.ofTerm_temps] at hnumbered
          exact (Array.getElem?_eq_some_iff.mp (htable.temps hnumbered)).1
      · split at hedit
        · cases hedit
        · obtain ⟨temp, htemp, rfl⟩ := Option.map_eq_some_iff.mp (Option.mem_toList.mp hedit)
          exact htemp

/-! ## Changes to blocks -/

/-- The edits of a walk over some statements. -/
theorem edits_of_steps (hsited : Sited original body temps) (wf : WellFormed original)
    {rest passed : List Inst} {walk last : Walk}
    (h : Tracked original body temps passed walk) (hrest : ∀ stmt ∈ rest, stmt ∈ body.stmts)
    (hnodup : rest.Nodup) (hlast : rest.foldlM (Walk.step body temps) walk = .ok last) :
    ∃ new, last.edits = walk.edits ++ new ∧ About rest new ∧
      ∀ edit ∈ new, Admits body temps edit ∧
        ∃ value dest, body.command? edit.slot.1 = some (.save value dest) := by
  induction rest generalizing passed walk with
  | nil =>
      cases hlast
      exact ⟨[], (List.append_nil _).symm, About.nil _, nofun⟩
  -- by induction on the statements, each of which adds changes to itself only
  | cons stmt rest ih =>
      have hstmt := hrest stmt List.mem_cons_self
      obtain ⟨command, hcommand, -⟩ := (hsited.wellFormed wf).commands stmt hstmt
      obtain ⟨next, hstep, hmove, -, hnext⟩ := h.step hsited wf hstmt hcommand
      rw [List.foldlM_cons, hstep] at hlast
      obtain ⟨first, hfirst, habout, hadmits⟩ := hmove.edits h.facts.indexed h.table
      obtain ⟨later, hlater, habout', hadmits'⟩ := ih hnext
        (fun other hother => hrest other (List.mem_cons_of_mem _ hother))
        (List.nodup_cons.mp hnodup).2 hlast
      refine ⟨first ++ later, by rw [hlater, hfirst, List.append_assoc],
        habout.append habout' hnodup, ?_⟩
      intro edit hedit
      rcases List.mem_append.mp hedit with hedit | hedit
      · obtain ⟨hfits, hdest⟩ := hadmits edit hedit
        refine ⟨hfits, ?_⟩
        rw [List.mem_singleton.mp (habout.saves edit hedit), hcommand]
        cases command with
        | save value dest => exact ⟨value, dest, rfl⟩
        | call | use | label | jump | branch | ret | exit => cases hdest
      · exact hadmits' edit hedit

/-- The walk over a block that its changes come from. -/
structure Visit where
  /-- The block. -/
  block : Block
  /-- The facts at its start. -/
  facts : Available
  /-- The walk at its end. -/
  walk : Walk

/-- What is known of the walk over a block. -/
structure Visited (original body : Body) (temps : Std.ExtTreeMap Inst Loc) (graph : FlowGraph)
    (solution : Solution Available) (sets : DisjointSets .loc) (visit : Visit) : Prop where
  flowing : Flowing original body temps [] visit.facts
  joined : Joined ((analysis body temps).contributions graph solution visit.block) sets visit.facts
  walk : walkBlock body temps visit.block visit.facts = .ok visit.walk

/-- What all walks come to. -/
structure Found (original body : Body) (temps : Std.ExtTreeMap Inst Loc) (graph : FlowGraph)
    (solution : Solution Available) (related : Loc → Loc → Prop) (blocks : List Block)
    (sets : DisjointSets .loc) (edits : List Edit) (visits : List Visit) : Prop where
  ordered : sets.Ordered
  unified : Unified related sets
  blocks : visits.map Visit.block = blocks
  visited : ∀ visit ∈ visits, Visited original body temps graph solution sets visit
  edits : edits = visits.flatMap fun visit => visit.walk.edits

/-- What flows into a block is an output or the state at the entry. -/
theorem contributions_flowing {graph : FlowGraph} {solution : Solution Available}
    (h : Worklist.Satisfies (Flowing original body temps []) solution) (block : Block) :
    ∀ path ∈ (analysis body temps).contributions graph solution block,
      Flowing original body temps [] path := by
  intro path hpath
  rw [Analysis.contributions, List.mem_append] at hpath
  rcases hpath with hpath | hpath
  · split at hpath
    · rw [List.mem_singleton.mp hpath]
      exact Flowing.empty
    · cases hpath
  · obtain ⟨other, -, hother⟩ := List.mem_filterMap.mp hpath
    exact h.2 hother

/-- **FINDING CHANGES** gives a result. -/
theorem findEdits_ok {related : Loc → Loc → Prop} (hrelates : Relates original body temps related)
    (hsited : Sited original body temps) (wf : WellFormed original) {graph : FlowGraph}
    {solution : Solution Available}
    (h : Worklist.Satisfies (Flowing original body temps []) solution) :
    ∃ sets edits visits, findEdits body temps graph solution = .ok (sets, edits) ∧
      Found original body temps graph solution related graph.reversePostorder
        sets edits visits := by
  have hfold : ∀ {step : DisjointSets .loc × List Edit → Block →
        Checked (DisjointSets .loc × List Edit)},
      (∀ state block walk,
        walkBlock body temps block (mergeInputs body state.1
          ((analysis body temps).contributions graph solution block)).2 = .ok walk →
        step state block = .ok ((mergeInputs body state.1
          ((analysis body temps).contributions graph solution block)).1,
          state.2 ++ walk.edits)) →
      ∀ (blocks : List Block) (sets : DisjointSets .loc) (edits : List Edit),
      sets.Ordered → Unified related sets →
      ∃ sets' new visits, blocks.foldlM step (sets, edits) = Except.ok (sets', edits ++ new) ∧
        Coarser sets sets' ∧
        Found original body temps graph solution related blocks sets' new visits := by
    -- by induction on the blocks: sets become coarser, so what was joined stays joined
    intro step hstep blocks
    induction blocks with
    | nil =>
        intro sets edits hordered hunified
        refine ⟨sets, [], [], by rw [List.append_nil]; rfl, Coarser.refl hordered, hordered,
          hunified, rfl, ?_, rfl⟩
        intro visit hvisit
        cases hvisit
    | cons block blocks ih =>
        intro sets edits hordered hunified
        let paths := (analysis body temps).contributions graph solution block
        let merged := mergeInputs body sets paths
        obtain ⟨hcoarser, hunified', hflowing, hjoined⟩ :=
          mergeInputs_spec hrelates hordered hunified (contributions_flowing h block)
        obtain ⟨walk, hwalk, -⟩ := walkBlock_ok hsited wf hflowing block
        obtain ⟨sets', new, visits, hrest, hcoarser', hfound⟩ :=
          ih merged.1 (edits ++ walk.edits) hcoarser.1 hunified'
        refine ⟨sets', walk.edits ++ new, ⟨block, merged.2, walk⟩ :: visits, ?_,
          hcoarser.trans hcoarser', hfound.ordered, hfound.unified, ?_, ?_, ?_⟩
        · rw [List.foldlM_cons, hstep (sets, edits) block walk hwalk, ← List.append_assoc]
          exact hrest
        · rw [List.map_cons, hfound.blocks]
        · intro visit hvisit
          rcases List.mem_cons.mp hvisit with rfl | hvisit
          · exact ⟨hflowing, hjoined.coarsen hcoarser', hwalk⟩
          · exact hfound.visited visit hvisit
        · rw [List.flatMap_cons, hfound.edits]
  obtain ⟨sets, edits, visits, hresult, -, hfound⟩ : ∃ sets new visits,
      findEdits body temps graph solution = .ok (sets, [] ++ new) ∧ Coarser {} sets ∧
        Found original body temps graph solution related graph.reversePostorder
          sets new visits := by
    refine hfold ?_ graph.reversePostorder {} [] DisjointSets.Ordered.empty
      Available.unified_empty
    intro state block walk hwalk
    simp only [bind, Except.bind, hwalk]
    rfl
  exact ⟨sets, edits, visits, hresult, hfound⟩

end CommonTerms

end DecafBackend
