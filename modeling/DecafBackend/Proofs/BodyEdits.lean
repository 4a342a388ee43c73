import DecafBackend.Proofs.WellFormed

/-! # Changes to bodies

    A statement keeps its command as long as its own records stay as they are.
    New records and new statements get keys of their own, so well-formed bodies
    stay so.

    * `command?_of_records` — commands depend on the records of the statement
    * `WellFormed.of_commands` — records change, the order of statements stays
    * `WellFormed.insertAfter` — a statement is added
    * `Command.mapLocs`, `command?_mapLocs` — locations are replaced -/

namespace DecafBackend

namespace Body

variable {body body' : Body}

/-! ## Commands -/

/-- A value depends on the records that belong to it only. -/
theorem isValue_of_records {value : Value} (h : body.IsValue value)
    (hrecords : ∀ inst ∈ value.insts, body'.records[inst.index]? = body.records[inst.index]?) :
    body'.IsValue value := by
  cases value with
  | load src => exact (hrecords src.inst (by simp [Value.insts])).trans h
  | param inst index => exact (hrecords inst (by simp [Value.insts])).trans h
  | call inst target args isExternal saved =>
      exact (hrecords inst (by simp [Value.insts])).trans h
  | unary inst op operand =>
      exact ⟨(hrecords inst (by simp [Value.insts])).trans h.1,
        (hrecords operand.inst (by simp [Value.insts])).trans h.2⟩
  | binary inst op lhs rhs =>
      exact ⟨(hrecords inst (by simp [Value.insts])).trans h.1,
        (hrecords lhs.inst (by simp [Value.insts])).trans h.2.1,
        (hrecords rhs.inst (by simp [Value.insts])).trans h.2.2⟩

/-- A statement is the same command wherever its records are the same. -/
theorem command?_of_records {stmt : Inst} {command : Command}
    (h : body.command? stmt = some command)
    (hrecords : ∀ inst ∈ command.owned ++ [stmt],
      body'.records[inst.index]? = body.records[inst.index]?) :
    body'.command? stmt = some command := by
  have hstmt := hrecords stmt (List.mem_append_right _ List.mem_cons_self)
  have howned : ∀ inst ∈ command.owned,
      body'.records[inst.index]? = body.records[inst.index]? :=
    fun inst hinst => hrecords inst (List.mem_append_left _ hinst)
  rw [command?_eq_some] at h ⊢
  cases command with
  | save value dest => exact ⟨hstmt.trans h.1, isValue_of_records h.2 howned⟩
  | branch cond target =>
      exact ⟨hstmt.trans h.1, (howned cond.inst (by simp [Command.owned])).trans h.2⟩
  | ret value =>
      cases value with
      | none => exact hstmt.trans h
      | some value =>
          exact ⟨hstmt.trans h.1, (howned value.inst (by simp [Command.owned])).trans h.2⟩
  | call | use | label | jump | exit => exact hstmt.trans h

/-- The records of a value exist. -/
theorem lt_size_of_mem_insts {value : Value} (h : body.IsValue value) {inst : Inst}
    (hinst : inst ∈ value.insts) : inst.index < body.records.size := by
  cases value with
  | load src => rw [List.mem_singleton.mp hinst]; exact lt_size h
  | param other index => rw [List.mem_singleton.mp hinst]; exact lt_size h
  | call other target args isExternal saved => rw [List.mem_singleton.mp hinst]; exact lt_size h
  | unary other op operand =>
      rcases List.mem_cons.mp hinst with rfl | hinst
      · exact lt_size h.2
      · rw [List.mem_singleton.mp hinst]; exact lt_size h.1
  | binary other op lhs rhs =>
      rcases List.mem_cons.mp hinst with rfl | hinst
      · exact lt_size h.2.1
      · rcases List.mem_cons.mp hinst with rfl | hinst
        · exact lt_size h.2.2
        · rw [List.mem_singleton.mp hinst]; exact lt_size h.1

/-- The records of a statement exist. -/
theorem lt_size_of_mem_family {stmt inst : Inst} {command : Command}
    (h : body.command? stmt = some command) (hinst : inst ∈ command.owned ++ [stmt]) :
    inst.index < body.records.size := by
  obtain ⟨record, hrecord, -⟩ := record_command h
  rcases List.mem_append.mp hinst with hinst | hinst
  · have h := command?_eq_some.mp h
    cases command with
    | save value dest => exact lt_size_of_mem_insts h.2 hinst
    | branch cond target => rw [List.mem_singleton.mp hinst]; exact lt_size h.2
    | ret value =>
        cases value with
        | none => cases hinst
        | some value => rw [List.mem_singleton.mp hinst]; exact lt_size h.2
    | call | use | label | jump | exit => cases hinst
  · rw [List.mem_singleton.mp hinst]
    exact lt_size hrecord

/-- A new record changes no command. -/
theorem command?_create {stmt : Inst} {command : Command} (h : body.command? stmt = some command)
    (record : Record) : (body.create record).2.command? stmt = some command := by
  refine command?_of_records h fun inst hinst => ?_
  show (body.records.push record)[inst.index]? = _
  rw [Array.getElem?_push, if_neg (Nat.ne_of_lt (lt_size_of_mem_family h hinst))]

/-- A record that is no part of a statement can be replaced. -/
theorem command?_setRecord {stmt inst : Inst} {command : Command} {record : Record}
    (h : body.command? stmt = some command) (hinst : inst ∉ command.owned ++ [stmt]) :
    (body.setRecord inst record).command? stmt = some command := by
  refine command?_of_records h fun other hother => ?_
  show (body.records.setIfInBounds inst.index record)[other.index]? = _
  refine Array.getElem?_setIfInBounds_ne fun hindex => hinst ?_
  obtain ⟨i⟩ := inst
  obtain ⟨j⟩ := other
  cases hindex
  exact hother

/-- A created record is found under its key. -/
theorem records_create (record : Record) :
    (body.create record).2.records[body.records.size]? = some record := by
  show (body.records.push record)[body.records.size]? = _
  rw [Array.getElem?_push, if_pos rfl]

/-- A replaced record is found under its key. -/
theorem records_setRecord {inst : Inst} (record : Record) (h : inst.index < body.records.size) :
    (body.setRecord inst record).records[inst.index]? = some record :=
  Array.getElem?_setIfInBounds_self_of_lt h

/-! ## The order of statements -/

/-- The statements depend on the blocks only. -/
theorem stmts_congr (h : body'.blocks = body.blocks) : body'.stmts = body.stmts := by
  rw [stmts, stmts, h]

/-- The last statement is a statement. -/
theorem lastStmt?_mem {stmt : Inst} (h : body.lastStmt? = some stmt) : stmt ∈ body.stmts := by
  obtain ⟨basic, hbasic, hlast⟩ := Option.bind_eq_some_iff.mp h
  exact List.mem_flatMap.mpr ⟨basic, Array.mem_toList_iff.mpr (Array.mem_of_back? hbasic),
    List.mem_of_getLast? hlast⟩

/-- What is placed are the statements. -/
theorem isPlaced_iff {stmt : Inst} : body.isPlaced stmt = true ↔ stmt ∈ body.stmts := by
  rw [isPlaced, Array.any_eq_true']
  simp only [stmts, List.mem_flatMap, Array.mem_toList_iff, List.contains_iff_mem]

/-- The statements of a block, where the lists of all blocks are edited. -/
theorem stmtsOf_mapStmts {f : List Inst → List Inst} (hf : f [] = []) (block : Block) :
    (body.mapStmts f).stmtsOf block = f (body.stmtsOf block) := by
  rw [stmtsOf, mapStmts, Array.getElem?_map, stmtsOf]
  cases body.blocks[block.index]? with
  | none => exact hf.symm
  | some basic => rfl

/-- Editing statements adds no block. -/
theorem size_mapStmts (f : List Inst → List Inst) :
    (body.mapStmts f).blocks.size = body.blocks.size := Array.size_map

/-- All statements, where the lists of all blocks are edited. -/
theorem stmts_mapStmts (f : List Inst → List Inst) :
    (body.mapStmts f).stmts = body.blocks.toList.flatMap fun basic => f basic.stmts := by
  simp only [stmts, mapStmts, Array.toList_map, List.flatMap_map]

theorem putAfter_cons (new anchor stmt : Inst) (stmts : List Inst) :
    putAfter new anchor (stmt :: stmts) =
      (if stmt = anchor then [stmt, new] else [stmt]) ++ putAfter new anchor stmts := rfl

/-- What is put behind a statement comes only where that one is. -/
theorem mem_putAfter {new anchor stmt : Inst} {stmts : List Inst} :
    stmt ∈ putAfter new anchor stmts ↔ stmt ∈ stmts ∨ (stmt = new ∧ anchor ∈ stmts) := by
  induction stmts with
  | nil => simp [putAfter]
  | cons first rest ih =>
      rw [putAfter_cons, List.mem_append, ih]
      -- at the anchor the new one comes second, behind it the anchor may stand again
      by_cases h : first = anchor
      · subst h
        simp only [if_true, List.mem_cons, List.not_mem_nil, or_false, true_or, and_true]
        constructor
        · rintro ((h | h) | h | ⟨h, -⟩)
          · exact Or.inl (Or.inl h)
          · exact Or.inr h
          · exact Or.inl (Or.inr h)
          · exact Or.inr h
        · rintro ((h | h) | h)
          · exact Or.inl (Or.inl h)
          · exact Or.inr (Or.inl h)
          · exact Or.inl (Or.inr h)
      · have hanchor : anchor ∈ first :: rest ↔ anchor ∈ rest := by
          rw [List.mem_cons]
          exact ⟨fun hmem => hmem.resolve_left fun heq => h heq.symm, Or.inr⟩
        rw [if_neg h, hanchor, List.mem_singleton, List.mem_cons, or_assoc]

/-- Nothing is put behind a statement that is not there. -/
theorem putAfter_of_not_mem {new anchor : Inst} {stmts : List Inst} (h : anchor ∉ stmts) :
    putAfter new anchor stmts = stmts := by
  induction stmts with
  | nil => rfl
  | cons first rest ih =>
      obtain ⟨hne, hrest⟩ := not_or.mp (fun hmem => h (List.mem_cons.mpr hmem))
      rw [putAfter_cons, if_neg (Ne.symm hne), ih hrest]
      rfl

/-- A statement that is put in once leaves statements distinct. -/
theorem putAfter_nodup {new anchor : Inst} {stmts : List Inst} (h : stmts.Nodup)
    (hnew : new ∉ stmts) : (putAfter new anchor stmts).Nodup := by
  induction stmts with
  | nil => exact List.nodup_nil
  | cons first rest ih =>
      obtain ⟨hfirst, hrest⟩ := List.nodup_cons.mp h
      have hnew' : new ∉ rest := fun hmem => hnew (List.mem_cons_of_mem _ hmem)
      have hne : new ≠ first := fun heq => hnew (heq ▸ List.mem_cons_self)
      rw [putAfter_cons]
      by_cases heq : first = anchor
      · subst heq
        rw [if_pos rfl, putAfter_of_not_mem hfirst]
        show (first :: new :: rest).Nodup
        rw [List.nodup_cons, List.nodup_cons]
        refine ⟨?_, hnew', hrest⟩
        intro hmem
        rcases List.mem_cons.mp hmem with hmem | hmem
        · exact hne hmem.symm
        · exact hfirst hmem
      · rw [if_neg heq]
        show (first :: putAfter new anchor rest).Nodup
        rw [List.nodup_cons]
        refine ⟨?_, ih hrest hnew'⟩
        intro hmem
        rcases mem_putAfter.mp hmem with hmem | ⟨hmem, -⟩
        · exact hfirst hmem
        · exact hne hmem.symm

/-- What follows a statement other than the two at the anchor. -/
theorem putAfter_split {new anchor stmt : Inst} {stmts before after : List Inst}
    (h : putAfter new anchor stmts = before ++ stmt :: after) (hnew : stmt ≠ new)
    (hanchor : stmt ≠ anchor) :
    ∃ before' after', stmts = before' ++ stmt :: after' ∧ after = putAfter new anchor after' := by
  induction stmts generalizing before with
  | nil => cases before <;> cases h
  | cons first rest ih =>
      rw [putAfter_cons] at h
      -- either the statement is the first one, or it stands behind what the first one became
      have hrest : ∀ {before}, putAfter new anchor rest = before ++ stmt :: after →
          ∃ before' after', first :: rest = before' ++ stmt :: after' ∧
            after = putAfter new anchor after' := by
        intro before hbefore
        obtain ⟨before', after', hsplit, hafter⟩ := ih hbefore
        exact ⟨first :: before', after', by rw [hsplit]; rfl, hafter⟩
      by_cases heq : first = anchor
      · rw [if_pos heq] at h
        cases before with
        | nil =>
            cases h
            exact absurd heq hanchor
        | cons x before =>
            cases before with
            | nil =>
                cases h
                exact absurd rfl hnew
            | cons y before =>
                injection h with h₁ h
                injection h with h₂ h
                exact hrest h
      · rw [if_neg heq] at h
        cases before with
        | nil =>
            cases h
            exact ⟨[], rest, rfl, rfl⟩
        | cons x before =>
            injection h with h₁ h
            exact hrest h

/-- What is put behind an earlier statement does not come last. -/
theorem getLast?_putAfter {new anchor stmt : Inst} {stmts : List Inst}
    (h : stmts.getLast? = some stmt) (hne : stmt ≠ anchor) :
    (putAfter new anchor stmts).getLast? = some stmt := by
  obtain ⟨front, rfl⟩ := List.getLast?_eq_some_iff.mp h
  rw [putAfter, List.flatMap_append, List.flatMap_singleton, if_neg hne, List.getLast?_concat]

/-- Putting a statement behind another is done in every block alike. -/
theorem stmts_putAfter (new anchor : Inst) :
    (body.mapStmts (putAfter new anchor)).stmts = putAfter new anchor body.stmts := by
  rw [stmts_mapStmts, stmts, putAfter, List.flatMap_assoc]

end Body

namespace WellFormed

variable {body body' : Body}

/-- A block has no statement twice. -/
theorem stmtsOf_nodup (wf : WellFormed body) (block : Block) : (body.stmtsOf block).Nodup := by
  rw [Body.stmtsOf]
  cases hbasic : body.blocks[block.index]? with
  | none => exact List.nodup_nil
  | some basic =>
      have hdistinct := wf.distinct
      rw [Body.stmts, List.Nodup, List.pairwise_flatMap] at hdistinct
      exact hdistinct.1 basic (Array.mem_toList_iff.mpr (Array.mem_of_getElem? hbasic))

/-- A statement stands in one block only. -/
theorem block_unique (wf : WellFormed body) {a b : Block} {stmt : Inst}
    (ha : stmt ∈ body.stmtsOf a) (hb : stmt ∈ body.stmtsOf b) : a = b := by
  have hdistinct := wf.distinct
  rw [Body.stmts, List.Nodup, List.pairwise_flatMap] at hdistinct
  -- each of the two blocks is one of the lists that make up the statements
  have hlt : ∀ {block : Block}, stmt ∈ body.stmtsOf block → ∃ basic,
      body.blocks.toList[block.index]? = some basic ∧ stmt ∈ basic.stmts := by
    intro block hblock
    rw [Body.stmtsOf] at hblock
    cases hbasic : body.blocks[block.index]? with
    | none => rw [hbasic] at hblock; cases hblock
    | some basic =>
        rw [hbasic] at hblock
        exact ⟨basic, by rw [Array.getElem?_toList, hbasic], hblock⟩
  obtain ⟨first, hfirst, hmem⟩ := hlt ha
  obtain ⟨second, hsecond, hmem'⟩ := hlt hb
  obtain ⟨i⟩ := a
  obtain ⟨j⟩ := b
  obtain ⟨hi, rfl⟩ := List.getElem?_eq_some_iff.mp hfirst
  obtain ⟨hj, rfl⟩ := List.getElem?_eq_some_iff.mp hsecond
  have hpairs := List.pairwise_iff_getElem.mp hdistinct.2
  rcases Nat.lt_trichotomy i j with hij | rfl | hij
  · exact absurd rfl (hpairs i j hi hj hij stmt hmem stmt hmem')
  · rfl
  · exact absurd rfl (hpairs j i hj hi hij stmt hmem' stmt hmem)

/-- The statements of different blocks, one block after the other. -/
theorem flatMap_stmtsOf_nodup (wf : WellFormed body) {blocks : List Block} (h : blocks.Nodup) :
    (blocks.flatMap body.stmtsOf).Nodup := by
  rw [List.Nodup, List.pairwise_flatMap]
  refine ⟨fun block _ => wf.stmtsOf_nodup block, ?_⟩
  refine List.Pairwise.imp ?_ h
  rintro a b hab stmt hstmt other hother rfl
  exact hab (wf.block_unique hstmt hother)

/-- A record that belongs to another statement belongs to no other one. -/
theorem not_mem_family (wf : WellFormed body) {stmt other inst : Inst} {command : Command}
    (hstmt : stmt ∈ body.stmts) (hother : other ∈ body.stmts) (hne : other ≠ stmt)
    (hinst : inst ∈ body.family stmt) (hcommand : body.command? other = some command) :
    inst ∉ command.owned ++ [other] := by
  rw [← Body.family_eq hcommand]
  intro hmem
  exact hne (wf.owned other hother stmt hstmt inst hmem hinst)

/-- The records of a statement are records of the body. -/
theorem family_lt (wf : WellFormed body) {stmt inst : Inst} (hstmt : stmt ∈ body.stmts)
    (hinst : inst ∈ body.family stmt) : inst.index < body.records.size := by
  obtain ⟨command, hcommand, -⟩ := wf.commands stmt hstmt
  exact Body.lt_size_of_mem_family hcommand (Body.family_eq hcommand ▸ hinst)

/-- Records still belong to one statement each when only one statement gets new ones. -/
theorem owned_of_new (wf : WellFormed body) (changed : Inst)
    (hfamily : ∀ stmt ∈ body'.stmts, ∀ inst ∈ body'.family stmt,
      (stmt ∈ body.stmts ∧ inst ∈ body.family stmt) ∨
        (stmt = changed ∧ body.records.size ≤ inst.index)) :
    ∀ stmt ∈ body'.stmts, ∀ other ∈ body'.stmts, ∀ inst,
      inst ∈ body'.family stmt → inst ∈ body'.family other → stmt = other := by
  intro stmt hstmt other hother inst hinst hinst'
  rcases hfamily stmt hstmt inst hinst with ⟨hold, hmem⟩ | ⟨hchanged, hge⟩
  · rcases hfamily other hother inst hinst' with ⟨hold', hmem'⟩ | ⟨-, hge⟩
    · exact wf.owned stmt hold other hold' inst hmem hmem'
    · exact absurd (wf.family_lt hold hmem) (Nat.not_lt.mpr hge)
  · rcases hfamily other hother inst hinst' with ⟨hold', hmem'⟩ | ⟨hchanged', -⟩
    · exact absurd (wf.family_lt hold' hmem') (Nat.not_lt.mpr hge)
    · exact hchanged.trans hchanged'.symm

/-- Records change, but every statement keeps its place; only one statement
    may get new records. -/
theorem of_commands (wf : WellFormed body) (hblocks : body'.blocks = body.blocks)
    (hlocations : body'.locations = body.locations) (changed : Inst)
    (hcommands : ∀ stmt ∈ body.stmts, ∀ command, body.command? stmt = some command →
      ∃ command', body'.command? stmt = some command' ∧ command'.Valid body' stmt ∧
        command'.endsBlock = command.endsBlock ∧
        command'.isTerminator = command.isTerminator ∧
        ∀ inst ∈ command'.owned, inst ∈ command.owned ∨
          (body.records.size ≤ inst.index ∧ stmt = changed)) :
    WellFormed body' := by
  have hstmts := Body.stmts_congr hblocks
  have hof := Body.stmtsOf_congr hblocks
  refine ⟨?_, hstmts ▸ wf.distinct, ?_, ?_, ?_, hlocations ▸ wf.interned⟩
  · intro stmt hstmt
    rw [hstmts] at hstmt
    obtain ⟨command, hcommand, -⟩ := wf.commands stmt hstmt
    obtain ⟨command', hcommand', hvalid, -⟩ := hcommands stmt hstmt command hcommand
    exact ⟨command', hcommand', hvalid⟩
  -- a record that came new belongs to the changed statement alone
  · refine wf.owned_of_new changed fun stmt hstmt inst hinst => ?_
    rw [hstmts] at hstmt
    obtain ⟨command, hcommand, -⟩ := wf.commands stmt hstmt
    obtain ⟨command', hcommand', -, -, -, howned⟩ := hcommands stmt hstmt command hcommand
    rw [Body.family_eq hcommand'] at hinst
    rw [Body.family_eq hcommand]
    rcases List.mem_append.mp hinst with hinst | hself
    · rcases howned inst hinst with hold | ⟨hge, hchanged⟩
      · exact Or.inl ⟨hstmt, List.mem_append_left _ hold⟩
      · exact Or.inr ⟨hchanged, hge⟩
    · exact Or.inl ⟨hstmt, List.mem_append_right _ hself⟩
  · intro block before stmt after command' hsplit hcommand' hends
    rw [hof] at hsplit
    have hstmt : stmt ∈ body.stmtsOf block := by rw [hsplit]; simp
    obtain ⟨command, hcommand, -⟩ := wf.command_of_mem hstmt
    obtain ⟨other, hother, -, hsame, -⟩ :=
      hcommands stmt (Body.mem_stmts_of_stmtsOf hstmt) command hcommand
    rw [hcommand'] at hother
    cases hother
    exact wf.enders hsplit hcommand (hsame ▸ hends)
  · obtain ⟨stmt, command, hlast, hcommand, hterminator⟩ := wf.ending
    obtain ⟨command', hcommand', -, -, hsame, -⟩ :=
      hcommands stmt (Body.lastStmt?_mem hlast) command hcommand
    refine ⟨stmt, command', ?_, hcommand', hsame.trans hterminator⟩
    rw [← hlast, Body.lastStmt?, Body.lastStmt?, hblocks]

/-- A statement that lets control through is put behind another such one. -/
theorem insertAfter (wf : WellFormed body) {new anchor : Inst} {command : Command}
    (hblocks : body'.blocks = (body.mapStmts (Body.putAfter new anchor)).blocks)
    (hlocations : body'.locations = body.locations) (hlabels : body'.labels = body.labels)
    (hanchor : body.command? anchor = some command) (hfalls : command.endsBlock = false)
    (hnew : body.records.size ≤ new.index)
    (hcommands : ∀ stmt ∈ body.stmts, ∀ command, body.command? stmt = some command →
      body'.command? stmt = some command)
    {added : Command} (hadded : body'.command? new = some added)
    (hvalid : added.Valid body' new) (haddedFalls : added.endsBlock = false)
    (howned : ∀ inst ∈ added.owned, body.records.size ≤ inst.index) : WellFormed body' := by
  have hsize : body'.blocks.size = body.blocks.size := by rw [hblocks, Body.size_mapStmts]
  have hstmts : body'.stmts = Body.putAfter new anchor body.stmts := by
    rw [Body.stmts_congr hblocks, Body.stmts_putAfter]
  have hof : ∀ block, body'.stmtsOf block = Body.putAfter new anchor (body.stmtsOf block) := by
    intro block
    rw [Body.stmtsOf_congr hblocks]
    exact Body.stmtsOf_mapStmts rfl block
  -- the new statement is none of the old ones, so those keep what they had
  have hfresh : new ∉ body.stmts := by
    intro hmem
    exact Nat.not_lt.mpr hnew (wf.family_lt hmem (Body.mem_family_self _ _))
  have hmem : ∀ {stmt}, stmt ∈ body'.stmts → stmt ∈ body.stmts ∨ stmt = new := by
    intro stmt hstmt
    rw [hstmts] at hstmt
    exact (Body.mem_putAfter.mp hstmt).imp id And.left
  refine ⟨?_, ?_, ?_, ?_, ?_, hlocations ▸ wf.interned⟩
  · intro stmt hstmt
    rcases hmem hstmt with hold | rfl
    · obtain ⟨other, hother, hold'⟩ := wf.commands stmt hold
      refine ⟨other, hcommands stmt hold other hother, ?_, ?_, ?_⟩
      · rw [hlocations]; exact hold'.reads
      · rw [hlocations]; exact hold'.dest
      · rw [hlabels, hsize]; exact hold'.target
    · exact ⟨added, hadded, hvalid⟩
  · rw [hstmts]
    exact Body.putAfter_nodup wf.distinct hfresh
  -- its records came new as well, so no other statement owns them
  · refine wf.owned_of_new new fun stmt hstmt inst hinst => ?_
    rcases hmem hstmt with hold | rfl
    · obtain ⟨other, hother, -⟩ := wf.commands stmt hold
      rw [Body.family_eq (hcommands stmt hold other hother)] at hinst
      exact Or.inl ⟨hold, Body.family_eq hother ▸ hinst⟩
    · rw [Body.family_eq hadded] at hinst
      refine Or.inr ⟨rfl, ?_⟩
      rcases List.mem_append.mp hinst with hinst | hinst
      · exact howned inst hinst
      · rw [List.mem_singleton.mp hinst]
        exact hnew
  · intro block before stmt after other hsplit hother hends
    rw [hof] at hsplit
    -- neither the new statement nor the anchor ends its block
    have hneNew : stmt ≠ new := by
      rintro rfl
      rw [hadded] at hother
      cases hother
      rw [haddedFalls] at hends
      cases hends
    have hin : stmt ∈ body.stmtsOf block := by
      have hmem : stmt ∈ Body.putAfter new anchor (body.stmtsOf block) := by rw [hsplit]; simp
      exact (Body.mem_putAfter.mp hmem).resolve_right fun h => hneNew h.1
    obtain ⟨command', hcommand', -⟩ := wf.command_of_mem hin
    have hsame := hcommands stmt (Body.mem_stmts_of_stmtsOf hin) command' hcommand'
    rw [hother] at hsame
    cases hsame
    have hneAnchor : stmt ≠ anchor := by
      rintro rfl
      rw [hanchor] at hcommand'
      cases hcommand'
      rw [hfalls] at hends
      cases hends
    obtain ⟨before', after', hold, rfl⟩ := Body.putAfter_split hsplit hneNew hneAnchor
    rw [wf.enders hold hcommand' hends]
    rfl
  -- the anchor does not end the body, so what stands last still does
  · obtain ⟨stmt, other, hlast, hother, hterminator⟩ := wf.ending
    have hstmt := Body.lastStmt?_mem hlast
    obtain ⟨basic, hbasic, hlast⟩ := Option.bind_eq_some_iff.mp hlast
    have hne : stmt ≠ anchor := by
      rintro rfl
      cases hanchor.symm.trans hother
      cases (Command.isTerminator_eq_false hfalls).symm.trans hterminator
    refine ⟨stmt, other, ?_, hcommands stmt hstmt other hother, hterminator⟩
    rw [Body.lastStmt?, hblocks, Body.mapStmts, Array.back?_map, hbasic]
    exact Body.getLast?_putAfter hlast hne

end WellFormed

/-! ## Other locations -/

/-- A value with every location it reads replaced. -/
def Value.mapLocs (f : Loc → Loc) : Value → Value
  | .load src => .load ⟨src.inst, f src.loc⟩
  | .param inst index => .param inst index
  | .unary inst op operand => .unary inst op ⟨operand.inst, f operand.loc⟩
  | .binary inst op lhs rhs => .binary inst op ⟨lhs.inst, f lhs.loc⟩ ⟨rhs.inst, f rhs.loc⟩
  | .call inst target args isExternal saved => .call inst target (args.map f) isExternal saved

/-- A command with every location it names replaced. -/
def Command.mapLocs (f : Loc → Loc) : Command → Command
  | .save value dest => .save (value.mapLocs f) (f dest)
  | .call target args isExternal saved => .call target (args.map f) isExternal saved
  | .use loc => .use (f loc)
  | .label place => .label place
  | .jump target => .jump target
  | .branch cond target => .branch ⟨cond.inst, f cond.loc⟩ target
  | .ret value => .ret (value.map fun access => ⟨access.inst, f access.loc⟩)
  | .exit code => .exit code

namespace Command

variable {f : Loc → Loc}

/-- Replacing locations changes no record that a command owns. -/
theorem owned_mapLocs (command : Command) : (command.mapLocs f).owned = command.owned := by
  cases command with
  | save value dest => cases value <;> rfl
  | ret value => cases value <;> rfl
  | _ => rfl

/-- The location that is written is replaced. -/
theorem dest?_mapLocs (command : Command) : (command.mapLocs f).dest? = command.dest?.map f := by
  cases command <;> rfl

/-- Replacing locations changes no label. -/
theorem target?_mapLocs (command : Command) : (command.mapLocs f).target? = command.target? := by
  cases command <;> rfl

/-- Replacing locations ends no block. -/
theorem endsBlock_mapLocs (command : Command) :
    (command.mapLocs f).endsBlock = command.endsBlock := by
  cases command <;> rfl

/-- Replacing locations keeps control where it goes. -/
theorem isTerminator_mapLocs (command : Command) :
    (command.mapLocs f).isTerminator = command.isTerminator := by
  cases command <;> rfl

/-- The locations that are read are replaced. -/
theorem reads_mapLocs (stmt : Inst) (command : Command) :
    (command.mapLocs f).reads stmt =
      (command.reads stmt).map fun access => ⟨access.inst, f access.loc⟩ := by
  cases command with
  | save value dest =>
      cases value with
      | call inst target args isExternal saved =>
          simp [mapLocs, Value.mapLocs, reads, Value.reads]
      | _ => rfl
  | call target args isExternal saved => simp [mapLocs, reads]
  | ret value => cases value <;> rfl
  | _ => rfl

/-- Nothing is replaced where every location that a command names stays. -/
theorem mapLocs_eq {stmt : Inst} {command : Command}
    (hreads : ∀ access ∈ command.reads stmt, f access.loc = access.loc)
    (hdest : ∀ dest, command.dest? = some dest → f dest = dest) : command.mapLocs f = command := by
  have hargs : ∀ {inst : Inst} {args : List Loc},
      (∀ access ∈ args.map (Access.mk inst), f access.loc = access.loc) → args.map f = args := by
    intro inst args h
    have hall : ∀ arg ∈ args, f arg = arg :=
      fun arg harg => h ⟨inst, arg⟩ (List.mem_map.mpr ⟨arg, harg, rfl⟩)
    rw [List.map_congr_left hall, List.map_id']
  cases command with
  | save value dest =>
      have hd := hdest dest rfl
      cases value with
      | load src => simp only [mapLocs, Value.mapLocs, hd, hreads src List.mem_cons_self]
      | param inst index => simp only [mapLocs, Value.mapLocs, hd]
      | unary inst op operand =>
          simp only [mapLocs, Value.mapLocs, hd, hreads operand List.mem_cons_self]
      | binary inst op lhs rhs =>
          simp only [mapLocs, Value.mapLocs, hd, hreads lhs List.mem_cons_self,
            hreads rhs (List.mem_cons_of_mem _ List.mem_cons_self)]
      | call inst target args isExternal saved =>
          simp only [mapLocs, Value.mapLocs, hd, hargs hreads]
  | call target args isExternal saved => simp only [mapLocs, hargs hreads]
  | use loc => simp only [mapLocs, hreads ⟨stmt, loc⟩ List.mem_cons_self]
  | branch cond target => simp only [mapLocs, hreads cond List.mem_cons_self]
  | ret value =>
      cases value with
      | none => rfl
      | some value => simp only [mapLocs, Option.map_some, hreads value List.mem_cons_self]
  | label place => rfl
  | jump target => rfl
  | exit code => rfl

end Command

/-- Replacing locations changes no operand. -/
theorem Record.operands_mapLocs (f : Loc → Loc) (record : Record) :
    (record.mapLocs f).operands = record.operands := by
  cases record <;> rfl

/-- A replacement that comes to rest at once can be made twice. -/
theorem Record.mapLocs_mapLocs {f : Loc → Loc} (hf : ∀ loc, f (f loc) = f loc) (record : Record) :
    (record.mapLocs f).mapLocs f = record.mapLocs f := by
  cases record with
  | load src => simp only [mapLocs, hf]
  | save value dest => simp only [mapLocs, hf]
  | use loc => simp only [mapLocs, hf]
  | call target args isExternal saved =>
      simp only [mapLocs, List.map_map]
      congr 2
      funext loc
      exact hf loc
  | _ => rfl

namespace Body

variable {body body' : Body}

/-- The tree of a statement depends on what its records own only. -/
theorem valueTree_congr (hsize : body'.records.size = body.records.size)
    (hoperands : ∀ inst : Inst, (body'.records[inst.index]?).map Record.operands =
      (body.records[inst.index]?).map Record.operands) (stmt : Inst) :
    body'.valueTree stmt = body.valueTree stmt := by
  -- by induction on the depth: a record leads to its operands, and those are the same
  have htree : ∀ depth inst, body'.treeWithin depth inst = body.treeWithin depth inst := by
    intro depth
    induction depth with
    | zero => exact fun _ => rfl
    | succ depth ih =>
        intro inst
        have hsame := hoperands inst
        rw [treeWithin, treeWithin, record, record, funext ih]
        cases hnew : body'.records[inst.index]? with
        | none =>
            rw [hnew] at hsame
            rw [Option.map_eq_none_iff.mp hsame.symm]
        | some new =>
            rw [hnew] at hsame
            obtain ⟨old, hold, heq⟩ := Option.map_eq_some_iff.mp hsame.symm
            rw [hold]
            simp only [bind, Except.bind, heq]
  rw [valueTree, valueTree, hsize, htree]

/-- A statement whose records all had their locations replaced. -/
theorem command?_mapLocs {f : Loc → Loc} {stmt : Inst} {command : Command}
    (h : body.command? stmt = some command)
    (hrecords : ∀ inst ∈ command.owned ++ [stmt],
      body'.records[inst.index]? = (body.records[inst.index]?).map (Record.mapLocs f)) :
    body'.command? stmt = some (command.mapLocs f) := by
  have hat : ∀ {inst : Inst} {record : Record}, inst ∈ command.owned ++ [stmt] →
      body.records[inst.index]? = some record →
      body'.records[inst.index]? = some (record.mapLocs f) := by
    intro inst record hinst hrecord
    rw [hrecords inst hinst, hrecord]
    rfl
  have hstmt : stmt ∈ command.owned ++ [stmt] := List.mem_append_right _ List.mem_cons_self
  rw [command?_eq_some] at h ⊢
  cases command with
  | save value dest =>
      refine ⟨?_, ?_⟩
      · have hsave := hat hstmt h.1
        cases value <;> exact hsave
      · have hvalue := h.2
        cases value with
        | load src => exact hat (by simp [Command.owned, Value.insts]) hvalue
        | param inst index => exact hat (by simp [Command.owned, Value.insts]) hvalue
        | call inst target args isExternal saved =>
            exact hat (by simp [Command.owned, Value.insts]) hvalue
        | unary inst op operand =>
            exact ⟨hat (by simp [Command.owned, Value.insts]) hvalue.1,
              hat (by simp [Command.owned, Value.insts]) hvalue.2⟩
        | binary inst op lhs rhs =>
            exact ⟨hat (by simp [Command.owned, Value.insts]) hvalue.1,
              hat (by simp [Command.owned, Value.insts]) hvalue.2.1,
              hat (by simp [Command.owned, Value.insts]) hvalue.2.2⟩
  | branch cond target =>
      exact ⟨hat hstmt h.1, hat (by simp [Command.owned]) h.2⟩
  | ret value =>
      cases value with
      | none => exact hat hstmt h
      | some value => exact ⟨hat hstmt h.1, hat (by simp [Command.owned]) h.2⟩
  | call target args isExternal saved => exact hat hstmt h
  | use loc => exact hat hstmt h
  | label place => exact hat hstmt h
  | jump target => exact hat hstmt h
  | exit code => exact hat hstmt h

end Body

end DecafBackend
