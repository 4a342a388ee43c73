import DecafBackend.Proofs.BodyEdits
import DecafBackend.Proofs.CommonTermsEdits

/-! # The changed body

    Every save that reuses a value loads it, and every save that is remembered
    is followed by a copy of its destination.  All other statements stay, and
    then every location becomes the representative of its set.

    * `applyEdit_reuse`, `applyEdit_remember` — single changes
    * `Shape`, `shape_of_edits` — the body after all of them
    * `Renamed`, `renameAliases_ok` — representatives in place of locations -/

namespace DecafBackend.CommonTerms

/-! ## Single changes -/

section

variable {body : Body} {save : Inst} {value : Value} {dest : Loc}

/-- A save that loads what it stores. -/
theorem applyEdit_reuse (wf : WellFormed body) (hsave : save ∈ body.stmts)
    (hcommand : body.command? save = some (.save value dest)) {source : Loc}
    (hsource : source.index < body.locations.size) :
    ∃ body', applyEdit body (.reuse save source) = .ok body' ∧ WellFormed body' ∧
      body' = { body with records := body'.records } ∧
      body'.records.size = body.records.size + 1 ∧
      body'.command? save =
        some (.save (.load ⟨⟨body.records.size⟩, source⟩) dest) ∧
      ∀ stmt ∈ body.stmts, stmt ≠ save → ∀ command, body.command? stmt = some command →
        body'.command? stmt = some command := by
  let created := (body.create (.load source)).2
  let load : Inst := ⟨body.records.size⟩
  let body' := created.setRecord save (.save load dest)
  have hold := Body.command?_create hcommand (.load source)
  have hrecord : created.records[save.index]? = some (.save value.inst dest) :=
    (Body.command?_eq_some.mp hold).1
  have hlt : save.index < created.records.size := Body.lt_size hrecord
  have hne : save.index ≠ body.records.size := by
    have := Body.lt_size (Body.command?_eq_some.mp hcommand).1
    omega
  -- the save keeps its key, and its value is the record that was created for it
  have hnew : body'.command? save = some (.save (.load ⟨load, source⟩) dest) := by
    rw [Body.command?_eq_some]
    refine ⟨Body.records_setRecord _ hlt, ?_⟩
    show (created.records.setIfInBounds save.index _)[body.records.size]? = _
    rw [Array.getElem?_setIfInBounds_ne hne]
    exact Body.records_create _
  -- no other statement owns the record of the save
  have hothers : ∀ stmt ∈ body.stmts, stmt ≠ save → ∀ command,
      body.command? stmt = some command → body'.command? stmt = some command := by
    intro stmt hstmt hother command hcommand'
    refine Body.command?_setRecord (Body.command?_create hcommand' _) ?_
    exact wf.not_mem_family hsave hstmt hother (Body.mem_family_self body save) hcommand'
  have hwf : WellFormed body' := by
    refine WellFormed.of_commands wf rfl rfl save ?_
    intro stmt hstmt command hcommand'
    have hvalid := wf.valid hstmt hcommand'
    by_cases heq : stmt = save
    · subst heq
      rw [hcommand] at hcommand'
      cases hcommand'
      refine ⟨_, hnew, ⟨?_, hvalid.dest, nofun⟩, rfl, rfl, ?_⟩
      · intro access haccess
        rw [List.mem_singleton.mp haccess]
        exact hsource
      · intro inst hinst
        rw [List.mem_singleton.mp hinst]
        exact Or.inr ⟨Nat.le_refl _, rfl⟩
    · exact ⟨command, hothers stmt hstmt heq command hcommand',
        ⟨hvalid.reads, hvalid.dest, hvalid.target⟩, rfl, rfl, fun _ => Or.inl⟩
  refine ⟨body', ?_, hwf, rfl, ?_, hnew, hothers⟩
  · show (created.record save >>= _) = _
    rw [Body.record_eq hrecord]
    rfl
  · show (created.records.setIfInBounds save.index _).size = _
    rw [Array.size_setIfInBounds]
    exact Array.size_push _

/-- A save that is followed by a copy of its destination; there may be no key
    left for the copy. -/
theorem applyEdit_remember (wf : WellFormed body) (hsave : save ∈ body.stmts)
    (hcommand : body.command? save = some (.save value dest)) {temp : Loc}
    (htemp : body.locations[temp.index]? = some .temp) :
    (applyEdit body (.remember save temp) = .error .reservedKey ∧
      KeyKind.inst.reserved = body.records.size + 1) ∨
    ∃ body', applyEdit body (.remember save temp) = .ok body' ∧ WellFormed body' ∧
      body' = { body with records := body'.records, blocks := body'.blocks } ∧
      body'.records.size = body.records.size + 2 ∧
      body'.blocks.size = body.blocks.size ∧
      (∀ block, body'.stmtsOf block =
        Body.putAfter ⟨body.records.size + 1⟩ save (body.stmtsOf block)) ∧
      body'.command? ⟨body.records.size + 1⟩ =
        some (.save (.load ⟨⟨body.records.size⟩, dest⟩) temp) ∧
      ∀ stmt ∈ body.stmts, ∀ command, body.command? stmt = some command →
        body'.command? stmt = some command := by
  let first := (body.create (.load dest)).2
  let load : Inst := ⟨body.records.size⟩
  let second := (first.create (.save load temp)).2
  let copy : Inst := ⟨body.records.size + 1⟩
  have hsize : first.records.size = body.records.size + 1 := Array.size_push _
  have hcopyKey : (first.create (.save load temp)).1 = copy := congrArg Key.mk hsize
  -- the two new records stand behind all others, so no command has changed
  have hkept : ∀ {stmt command}, body.command? stmt = some command →
      second.command? stmt = some command :=
    fun h => Body.command?_create (Body.command?_create h _) _
  have hcopy : second.command? copy = some (.save (.load ⟨load, dest⟩) temp) := by
    rw [Body.command?_eq_some]
    constructor
    · show (first.records.push _)[body.records.size + 1]? = _
      rw [← hsize]
      exact Array.getElem?_push_size
    · show (first.records.push _)[body.records.size]? = _
      rw [Array.getElem?_push, if_neg (by omega)]
      exact Body.records_create _
  have hfresh : copy ∉ body.stmts := by
    intro hmem
    exact Nat.not_lt.mpr (Nat.le_succ _) (wf.family_lt hmem (Body.mem_family_self _ _))
  have hplaced : second.isPlaced copy = false := by
    cases hplaced : second.isPlaced copy with
    | false => rfl
    | true => exact absurd (Body.isPlaced_iff.mp hplaced) hfresh
  have hanchor : second.isPlaced save = true := Body.isPlaced_iff.mpr hsave
  -- both keys are known, so the edit comes down to putting the copy behind its save
  have happly : applyEdit body (.remember save temp) = second.insertAfter copy save := by
    rw [applyEdit, Body.record_eq (Body.command?_eq_some.mp hcommand).1]
    show (first.create (.save load temp)).2.insertAfter (first.create (.save load temp)).1 save = _
    rw [hcopyKey]
  have hinsert : second.insertAfter copy save =
      if copy.isReserved then .error .reservedKey
      else .ok (second.mapStmts (Body.putAfter copy save)) := by
    rw [Body.insertAfter, Body.checkPlacement, hplaced, hanchor]
    cases copy.isReserved with
    | true => rfl
    | false => rfl
  rw [happly, hinsert]
  cases hreserved : copy.isReserved with
  | true =>
      left
      exact ⟨rfl, (eq_of_beq hreserved).symm⟩
  | false =>
      right
      have hcommands : ∀ stmt ∈ body.stmts, ∀ command, body.command? stmt = some command →
          (second.mapStmts (Body.putAfter copy save)).command? stmt = some command :=
        fun stmt _ command h => hkept h
      refine ⟨_, rfl, ?_, rfl, ?_, Body.size_mapStmts _, ?_, hcopy, hcommands⟩
      · refine WellFormed.insertAfter wf rfl rfl rfl hcommand rfl (Nat.le_succ _) hcommands hcopy
          ⟨?_, ?_, nofun⟩ rfl ?_
        · intro access haccess
          rw [List.mem_singleton.mp haccess]
          obtain ⟨location, hlocation, -⟩ := (wf.valid hsave hcommand).dest dest rfl
          exact (Array.getElem?_eq_some_iff.mp hlocation).1
        · intro loc hloc
          cases hloc
          exact ⟨.temp, htemp, rfl⟩
        · intro inst hinst
          exact List.mem_singleton.mp hinst ▸ Nat.le_refl _
      · show (first.records.push _).size = _
        rw [Array.size_push, hsize]
      · intro block
        exact Body.stmtsOf_mapStmts rfl block

end

/-! ## All changes -/

/-- A body that some edits were carried out on; `copies` gives what was put
    behind each statement. -/
structure Shape (base body : Body) (done : List Edit) (copies : Inst → List Inst) : Prop where
  wf : WellFormed body
  same : body = { base with records := body.records, blocks := body.blocks }
  blocks : body.blocks.size = base.blocks.size
  grows : base.records.size ≤ body.records.size
  bounded : body.records.size ≤ base.records.size + 2 * done.length
  stmtsOf : ∀ block, body.stmtsOf block =
    (base.stmtsOf block).flatMap fun stmt => stmt :: copies stmt
  fresh : ∀ stmt, ∀ copy ∈ copies stmt, base.records.size ≤ copy.index
  kept : ∀ {stmt command}, stmt ∈ base.stmts → base.command? stmt = some command →
    (∀ source, Edit.reuse stmt source ∉ done) → body.command? stmt = some command
  reused : ∀ {stmt value dest source}, stmt ∈ base.stmts →
    base.command? stmt = some (.save value dest) → Edit.reuse stmt source ∈ done →
      ∃ load, body.command? stmt = some (.save (.load ⟨load, source⟩) dest)
  copied : ∀ {stmt value dest temp}, stmt ∈ base.stmts →
    base.command? stmt = some (.save value dest) → Edit.remember stmt temp ∈ done →
      ∃ copy load, copies stmt = [copy] ∧
        body.command? copy = some (.save (.load ⟨load, dest⟩) temp)
  single : ∀ {stmt}, (∀ temp, Edit.remember stmt temp ∉ done) → copies stmt = []

/-- An unchanged body has the shape without changes. -/
theorem Shape.start {base : Body} (wf : WellFormed base) : Shape base base [] fun _ => [] where
  wf := wf
  same := rfl
  blocks := rfl
  grows := Nat.le_refl _
  bounded := Nat.le_refl _
  stmtsOf block := by
    show _ = (base.stmtsOf block).flatMap fun stmt => [stmt]
    rw [List.flatMap_singleton']
  fresh := nofun
  kept _ hcommand _ := hcommand
  reused _ _ h := by cases h
  copied _ _ h := by cases h
  single _ := rfl

section

variable {base body : Body} {done : List Edit} {copies : Inst → List Inst}

/-- Statements stay statements. -/
theorem Shape.mem_stmts (h : Shape base body done copies) {stmt : Inst}
    (hstmt : stmt ∈ base.stmts) :
    stmt ∈ body.stmts := by
  obtain ⟨block, hlt, hmem⟩ := Body.mem_stmts.mp hstmt
  rw [Body.mem_stmts]
  refine ⟨block, by rw [h.blocks]; exact hlt, ?_⟩
  rw [h.stmtsOf]
  exact List.mem_flatMap.mpr ⟨stmt, hmem, List.mem_cons_self⟩

/-- Changes add no location. -/
theorem Shape.locations (h : Shape base body done copies) : body.locations = base.locations := by
  have hlocations := congrArg Body.locations h.same
  exact hlocations

/-- Changes place no label. -/
theorem Shape.labels (h : Shape base body done copies) : body.labels = base.labels := by
  have hlabels := congrArg Body.labels h.same
  exact hlabels

/-- Copies are statements. -/
theorem Shape.copy_mem_stmts (h : Shape base body done copies) {stmt copy : Inst}
    (hstmt : stmt ∈ base.stmts) (hcopy : copy ∈ copies stmt) : copy ∈ body.stmts := by
  obtain ⟨block, hlt, hmem⟩ := Body.mem_stmts.mp hstmt
  rw [Body.mem_stmts]
  refine ⟨block, by rw [h.blocks]; exact hlt, ?_⟩
  rw [h.stmtsOf]
  exact List.mem_flatMap.mpr ⟨stmt, hmem, List.mem_cons_of_mem _ hcopy⟩

/-- A save stays a save into its location. -/
theorem Shape.command (h : Shape base body done copies) {save : Inst} {value : Value} {dest : Loc}
    (hsave : save ∈ base.stmts) (hcommand : base.command? save = some (.save value dest)) :
    ∃ value', body.command? save = some (.save value' dest) := by
  by_cases hreused : ∃ source, Edit.reuse save source ∈ done
  · obtain ⟨source, hsource⟩ := hreused
    obtain ⟨load, hload⟩ := h.reused hsave hcommand hsource
    exact ⟨_, hload⟩
  · exact ⟨value, h.kept hsave hcommand fun source hsource => hreused ⟨source, hsource⟩⟩

/-- One value more is reused. -/
theorem Shape.reuse (h : Shape base body done copies) {save : Inst} {value : Value} {dest : Loc}
    {source : Loc} (hsave : save ∈ base.stmts)
    (hcommand : base.command? save = some (.save value dest))
    (hsource : source.index < base.locations.size) (hslot : (save, true) ∉ done.map Edit.slot) :
    ∃ next, applyEdit body (.reuse save source) = .ok next ∧
      Shape base next (done ++ [.reuse save source]) copies := by
  obtain ⟨current, hcurrent⟩ := h.command hsave hcommand
  obtain ⟨next, happly, hwf, hsame, hsize, hnew, hothers⟩ :=
    applyEdit_reuse h.wf (h.mem_stmts hsave) hcurrent (h.locations ▸ hsource)
  have hblocks : next.blocks = body.blocks := by
    have hblocks := congrArg Body.blocks hsame
    exact hblocks
  refine ⟨next, happly, hwf, ?_, ?_, ?_, ?_, ?_, h.fresh, ?_, ?_, ?_, ?_⟩
  · rw [hsame, h.same]
  · rw [hblocks, h.blocks]
  · have := h.grows
    omega
  · have := h.bounded
    rw [List.length_append, List.length_singleton]
    omega
  · intro block
    rw [← h.stmtsOf, Body.stmtsOf, Body.stmtsOf, hblocks]
  -- the save was not changed in its value before, so it is the only one that differs
  · intro stmt command hstmt hold hnone
    have hne : stmt ≠ save := by
      rintro rfl
      exact hnone source (List.mem_append_right _ List.mem_cons_self)
    exact hothers stmt (h.mem_stmts hstmt) hne command
      (h.kept hstmt hold fun other hother => hnone other (List.mem_append_left _ hother))
  · intro stmt value' dest' source' hstmt hold hmem
    rcases List.mem_append.mp hmem with hearlier | hmem
    · have hne : stmt ≠ save := by
        rintro rfl
        exact hslot (List.mem_map.mpr ⟨.reuse stmt source', hearlier, rfl⟩)
      obtain ⟨load, hload⟩ := h.reused hstmt hold hearlier
      exact ⟨load, hothers stmt (h.mem_stmts hstmt) hne _ hload⟩
    · cases List.mem_singleton.mp hmem
      rw [hcommand] at hold
      -- copies were made before, and their records are behind those of the saves
      cases hold
      exact ⟨_, hnew⟩
  · intro stmt value' dest' temp hstmt hold hmem
    rcases List.mem_append.mp hmem with hmem | hmem
    · obtain ⟨copy, load, hcopies, hcopy⟩ := h.copied hstmt hold hmem
      have hin : copy ∈ copies stmt := by rw [hcopies]; exact List.mem_cons_self
      refine ⟨copy, load, hcopies, hothers copy (h.copy_mem_stmts hstmt hin) ?_ _ hcopy⟩
      rintro rfl
      exact absurd (Body.lt_size (Body.command?_eq_some.mp hcommand).1)
        (Nat.not_lt.mpr (h.fresh stmt copy hin))
    · cases List.mem_singleton.mp hmem
  · intro stmt hnone
    exact h.single fun temp hmem => hnone temp (List.mem_append_left _ hmem)

/-- What is put behind a statement without copies becomes its copy. -/
theorem putAfter_flatMap {new anchor : Inst} {stmts : List Inst}
    (hcopies : ∀ stmt ∈ stmts, anchor ∉ copies stmt) (hnone : copies anchor = []) :
    Body.putAfter new anchor (stmts.flatMap fun stmt => stmt :: copies stmt) =
      stmts.flatMap fun stmt => stmt :: if stmt = anchor then [new] else copies stmt := by
  induction stmts with
  | nil => rfl
  | cons first rest ih =>
      have hrest := ih fun stmt hstmt => hcopies stmt (List.mem_cons_of_mem _ hstmt)
      have happend : ∀ xs ys : List Inst, Body.putAfter new anchor (xs ++ ys) =
          Body.putAfter new anchor xs ++ Body.putAfter new anchor ys :=
        fun xs ys => List.flatMap_append
      rw [List.flatMap_cons, List.flatMap_cons, happend, hrest]
      congr 1
      by_cases heq : first = anchor
      · subst heq
        rw [hnone, if_pos rfl, Body.putAfter_cons, if_pos rfl]
        rfl
      · rw [if_neg heq, Body.putAfter_cons, if_neg heq,
          Body.putAfter_of_not_mem (hcopies first List.mem_cons_self)]
        rfl

/-- One value more is remembered, unless the keys have run out. -/
theorem Shape.remember (h : Shape base body done copies) {save : Inst} {value : Value} {dest : Loc}
    {temp : Loc} (hsave : save ∈ base.stmts)
    (hcommand : base.command? save = some (.save value dest))
    (htemp : base.locations[temp.index]? = some .temp)
    (hslot : (save, false) ∉ done.map Edit.slot) :
    (applyEdit body (.remember save temp) = .error .reservedKey ∧
      KeyKind.inst.reserved = body.records.size + 1) ∨
    ∃ next copies', applyEdit body (.remember save temp) = .ok next ∧
      Shape base next (done ++ [.remember save temp]) copies' := by
  obtain ⟨current, hcurrent⟩ := h.command hsave hcommand
  -- a save is remembered once, so nothing stands behind it yet
  have hnone : copies save = [] := by
    refine h.single fun other hmem => hslot ?_
    exact List.mem_map.mpr ⟨.remember save other, hmem, rfl⟩
  rcases applyEdit_remember h.wf (h.mem_stmts hsave) hcurrent (h.locations ▸ htemp) with
    hreserved | ⟨next, happly, hwf, hsame, hsize, hblocks, hof, hcopy, hothers⟩
  · exact Or.inl hreserved
  · have hgrows := h.grows
    refine Or.inr ⟨next, fun stmt =>
      if stmt = save then [⟨body.records.size + 1⟩] else copies stmt, happly, hwf, ?_, ?_, ?_, ?_,
      ?_, ?_, ?_, ?_, ?_, ?_⟩
    · rw [hsame, h.same]
    · rw [hblocks, h.blocks]
    · omega
    · have := h.bounded
      rw [List.length_append, List.length_singleton]
      omega
    -- the anchor is a statement of the body, and copies are new, so it is found only once
    · intro block
      rw [hof, h.stmtsOf]
      refine putAfter_flatMap ?_ hnone
      intro stmt _ hmem
      exact absurd (Body.lt_size (Body.command?_eq_some.mp hcommand).1)
        (Nat.not_lt.mpr (h.fresh stmt save hmem))
    · intro stmt copy hmem
      split at hmem
      · rw [List.mem_singleton.mp hmem]
        show _ ≤ body.records.size + 1
        omega
      · exact h.fresh stmt copy hmem
    · intro stmt command hstmt hold hkeep
      refine hothers stmt (h.mem_stmts hstmt) command (h.kept hstmt hold fun source hmem => ?_)
      exact hkeep source (List.mem_append_left _ hmem)
    · intro stmt value' dest' source hstmt hold hmem
      rcases List.mem_append.mp hmem with hmem | hmem
      · obtain ⟨load, hload⟩ := h.reused hstmt hold hmem
        exact ⟨load, hothers stmt (h.mem_stmts hstmt) _ hload⟩
      · cases List.mem_singleton.mp hmem
    · intro stmt value' dest' temp' hstmt hold hmem
      rcases List.mem_append.mp hmem with hearlier | hmem
      · have hne : stmt ≠ save := by
          rintro rfl
          exact hslot (List.mem_map.mpr ⟨.remember stmt temp', hearlier, rfl⟩)
        obtain ⟨copy, load, hcopies, hcommand'⟩ := h.copied hstmt hold hearlier
        have hin : copy ∈ copies stmt := by rw [hcopies]; exact List.mem_cons_self
        exact ⟨copy, load, by rw [if_neg hne, hcopies],
          hothers copy (h.copy_mem_stmts hstmt hin) _ hcommand'⟩
      · cases List.mem_singleton.mp hmem
        rw [hcommand] at hold
        cases hold
        exact ⟨_, _, if_pos rfl, hcopy⟩
    · intro stmt hkeep
      have hne : stmt ≠ save := by
        rintro rfl
        exact hkeep temp (List.mem_append_right _ List.mem_cons_self)
      rw [if_neg hne]
      exact h.single fun other hmem => hkeep other (List.mem_append_left _ hmem)

/-- **THE BODY AFTER ALL CHANGES**; only keys can run out. -/
theorem shape_of_edits {temps : Std.ExtTreeMap Inst Loc} {edits : List Edit}
    (h : Shape base body done copies)
    (hedits : ∀ edit ∈ edits, Admits base temps edit ∧ edit.slot.1 ∈ base.stmts ∧
      ∃ value dest, base.command? edit.slot.1 = some (.save value dest))
    (htemps : ∀ {site : Inst} {temp : Loc}, temps[site]? = some temp →
      base.locations[temp.index]? = some .temp)
    (hslots : ((done ++ edits).map Edit.slot).Nodup) :
    match edits.foldlM applyEdit body with
    | .ok last => ∃ copies', Shape base last (done ++ edits) copies'
    | .error fault => fault = .reservedKey ∧
        KeyKind.inst.reserved ≤ base.records.size + 2 * (done ++ edits).length := by
  induction edits generalizing body done copies with
  | nil =>
      rw [List.append_nil]
      exact ⟨copies, h⟩
  | cons edit edits ih =>
      obtain ⟨hadmits, hsave, value, dest, hcommand⟩ := hedits edit List.mem_cons_self
      have hslot : edit.slot ∉ done.map Edit.slot := by
        -- no slot comes up twice, so this edit is the first one for its slot
        rw [List.map_append, List.nodup_append] at hslots
        intro hmem
        exact hslots.2.2 _ hmem edit.slot (List.mem_map.mpr ⟨edit, List.mem_cons_self, rfl⟩) rfl
      have hrest : ∀ other ∈ edits, Admits base temps other ∧ other.slot.1 ∈ base.stmts ∧
          ∃ value dest, base.command? other.slot.1 = some (.save value dest) :=
        fun other hother => hedits other (List.mem_cons_of_mem _ hother)
      rw [List.append_cons] at hslots ⊢
      rw [List.foldlM_cons]
      cases edit with
      | reuse save source =>
          dsimp only [Edit.slot] at hsave hcommand hslot
          obtain ⟨next, happly, hnext⟩ := h.reuse hsave hcommand hadmits hslot
          rw [happly]
          exact ih hnext hrest hslots
      | remember save temp =>
          dsimp only [Edit.slot] at hsave hcommand hslot
          rcases h.remember hsave hcommand (htemps hadmits) hslot with
            ⟨happly, hreserved⟩ | ⟨next, copies', happly, hnext⟩
          · rw [happly]
            refine ⟨rfl, ?_⟩
            -- each edit before has made two records at most
            have := h.bounded
            rw [List.length_append, List.length_append, List.length_singleton]
            omega
          · rw [happly]
            exact ih hnext hrest hslots

end

/-! ## Representatives -/

section

variable {f : Loc → Loc} {body : Body}

/-- A body in which the records of a list had their locations replaced. -/
structure Replaced (f : Loc → Loc) (body : Body) (done : List Inst) (body' : Body) : Prop where
  same : body' = { body with records := body'.records }
  size : body'.records.size = body.records.size
  replaced : ∀ {inst : Inst}, inst ∈ done →
    body'.records[inst.index]? = (body.records[inst.index]?).map (Record.mapLocs f)
  left : ∀ {inst : Inst}, inst ∉ done → body'.records[inst.index]? = body.records[inst.index]?

/-- At first nothing is replaced. -/
theorem Replaced.start (f : Loc → Loc) (body : Body) : Replaced f body [] body :=
  ⟨rfl, rfl, nofun, fun _ => rfl⟩

/-- Replacing locations changes no operand of a record. -/
theorem Replaced.operands {done : List Inst} {body' : Body} (h : Replaced f body done body')
    (inst : Inst) : (body'.records[inst.index]?).map Record.operands =
      (body.records[inst.index]?).map Record.operands := by
  by_cases hinst : inst ∈ done
  · rw [h.replaced hinst, Option.map_map]
    congr 1
    funext record
    exact Record.operands_mapLocs f record
  · rw [h.left hinst]

/-- One record more is replaced. -/
theorem Replaced.step (hf : ∀ loc, f (f loc) = f loc) {done : List Inst} {body' : Body}
    (h : Replaced f body done body') {inst : Inst} (hlt : inst.index < body.records.size) :
    ∃ record, body'.record inst = .ok record ∧
      Replaced f body (done ++ [inst]) (body'.setRecord inst (record.mapLocs f)) := by
  obtain ⟨old, hold⟩ : ∃ old, body.records[inst.index]? = some old :=
    ⟨_, Array.getElem?_eq_getElem hlt⟩
  -- a record that comes up again stays as it is
  obtain ⟨record, hrecord, hmapped⟩ : ∃ record, body'.records[inst.index]? = some record ∧
      record.mapLocs f = old.mapLocs f := by
    by_cases hinst : inst ∈ done
    · exact ⟨old.mapLocs f, by rw [h.replaced hinst, hold]; rfl, Record.mapLocs_mapLocs hf old⟩
    · exact ⟨old, (h.left hinst).trans hold, rfl⟩
  refine ⟨record, Body.record_eq hrecord, ?_⟩
  rw [hmapped]
  have hother : ∀ {other : Inst}, other ≠ inst →
      (body'.setRecord inst (old.mapLocs f)).records[other.index]? =
        body'.records[other.index]? := by
    intro other hne
    refine Array.getElem?_setIfInBounds_ne fun hindex => hne ?_
    obtain ⟨i⟩ := inst
    obtain ⟨j⟩ := other
    exact congrArg Key.mk hindex.symm
  refine ⟨?_, ?_, ?_, ?_⟩
  · exact congrArg (fun b : Body =>
      { b with records := (body'.setRecord inst (old.mapLocs f)).records }) h.same
  · show (body'.records.setIfInBounds inst.index _).size = _
    rw [Array.size_setIfInBounds, h.size]
  · intro other hmem
    by_cases heq : other = inst
    · rw [heq, hold]
      exact Body.records_setRecord _ (h.size ▸ hlt)
    · rw [hother heq]
      rcases List.mem_append.mp hmem with hmem | hmem
      · exact h.replaced hmem
      · exact absurd (List.mem_singleton.mp hmem) heq
  · intro other hnot
    have hne : other ≠ inst := by
      rintro rfl
      exact hnot (List.mem_append_right _ List.mem_cons_self)
    rw [hother hne]
    exact h.left fun hmem => hnot (List.mem_append_left _ hmem)

/-- Records are replaced one by one. -/
theorem Replaced.steps (hf : ∀ loc, f (f loc) = f loc) {insts done : List Inst} {body' : Body}
    (h : Replaced f body done body') (hinsts : ∀ inst ∈ insts, inst.index < body.records.size) :
    ∃ last, insts.foldlM (fun (body : Body) inst => do
        return body.setRecord inst ((← body.record inst).mapLocs f)) body' = Except.ok last ∧
      Replaced f body (done ++ insts) last := by
  induction insts generalizing done body' with
  | nil => exact ⟨body', rfl, by rw [List.append_nil]; exact h⟩
  | cons inst insts ih =>
      obtain ⟨record, hrecord, hnext⟩ := h.step hf (hinsts inst List.mem_cons_self)
      obtain ⟨last, hlast, hdone⟩ :=
        ih hnext fun other hother => hinsts other (List.mem_cons_of_mem _ hother)
      refine ⟨last, ?_, by rw [List.append_assoc] at hdone; exact hdone⟩
      rw [List.foldlM_cons, hrecord]
      exact hlast

/-- A body in which all statements had their locations replaced. -/
structure Renamed (f : Loc → Loc) (body after : Body) : Prop where
  same : after = { body with records := after.records }
  commands : ∀ {stmt : Inst} {command : Command}, stmt ∈ body.stmts →
    body.command? stmt = some command → after.command? stmt = some (command.mapLocs f)

namespace Renamed

variable {after : Body}

/-- A body is renamed as it is when nothing gets another location. -/
theorem refl (hf : ∀ loc, f loc = loc) (body : Body) : Renamed f body body where
  same := rfl
  commands {stmt command} _ hcommand := by
    rw [hcommand, Command.mapLocs_eq (fun access (_ : access ∈ command.reads stmt) => hf access.loc)
      fun dest _ => hf dest]

/-- Renaming keeps the blocks. -/
theorem blocks (h : Renamed f body after) : after.blocks = body.blocks := by rw [h.same]

/-- Renaming keeps the locations. -/
theorem locations (h : Renamed f body after) : after.locations = body.locations := by rw [h.same]

/-- Renaming keeps the labels. -/
theorem labels (h : Renamed f body after) : after.labels = body.labels := by rw [h.same]

/-- Renaming keeps the bindings. -/
theorem bindings (h : Renamed f body after) : after.bindings = body.bindings := by rw [h.same]

end Renamed

/-- **RENAMING** replaces the locations of all statements. -/
theorem renameAliases_ok {sets : DisjointSets .loc} (hordered : sets.Ordered)
    (wf : WellFormed body) :
    ∃ after, renameAliases sets body = .ok after ∧ Renamed sets.root body after := by
  have hfold : ∀ (stmts done : List Inst) (current : Body), (∀ stmt ∈ stmts, stmt ∈ body.stmts) →
      Replaced sets.root body done current →
      ∃ last, stmts.foldlM (fun body stmt => do
          (← body.valueTree stmt).foldlM (fun body inst => do
            return body.setRecord inst ((← body.record inst).mapLocs sets.root)) body) current =
          Except.ok last ∧
        Replaced sets.root body (done ++ stmts.flatMap body.family) last := by
    intro stmts
    induction stmts with
    | nil =>
        intro done current _ h
        exact ⟨current, rfl, by rw [List.flatMap_nil, List.append_nil]; exact h⟩
    | cons stmt stmts ih =>
        intro done current hstmts h
        obtain ⟨command, hcommand, -⟩ := wf.commands stmt (hstmts stmt List.mem_cons_self)
        -- locations take no part in the tree of a statement, so it is the tree from before
        have htree : current.valueTree stmt = .ok (body.family stmt) := by
          rw [Body.valueTree_congr h.size h.operands, Body.valueTree_eq hcommand,
            Body.family_eq hcommand]
        obtain ⟨next, hnext, hreplaced⟩ := h.steps hordered.root_root fun _ hinst =>
          wf.family_lt (hstmts stmt List.mem_cons_self) hinst
        obtain ⟨last, hlast, hdone⟩ :=
          ih _ next (fun other hother => hstmts other (List.mem_cons_of_mem _ hother)) hreplaced
        refine ⟨last, ?_, by rw [List.flatMap_cons, ← List.append_assoc]; exact hdone⟩
        rw [List.foldlM_cons, htree]
        simp only [bind, Except.bind] at hnext ⊢
        rw [hnext]
        exact hlast
  obtain ⟨last, hlast, hreplaced⟩ :=
    hfold body.stmts [] body (fun _ h => h) (Replaced.start _ body)
  refine ⟨last, hlast, hreplaced.same, fun {stmt command} hstmt hcommand => ?_⟩
  refine Body.command?_mapLocs hcommand fun inst hinst => hreplaced.replaced ?_
  rw [List.nil_append, List.mem_flatMap]
  exact ⟨stmt, hstmt, Body.family_eq hcommand ▸ hinst⟩

end

end DecafBackend.CommonTerms
