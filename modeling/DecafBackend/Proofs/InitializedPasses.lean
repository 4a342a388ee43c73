import DecafBackend.Proofs.ChangedWays
import DecafBackend.Proofs.FitPasses
import DecafBackend.Proofs.LoweredPrograms

/-! # Passes keep bodies initialized

    Copies are propagated from locations that have been saved, values are reused
    from where they have been saved, and a save that is deleted was not the one that
    a read sees.  So passes keep that every variable and temporary is saved before it
    is read.

    * `Copies.Carried`, `Initialized.propagated` — copies have saved sources
    * `CommonTerms.Filled`, `Initialized.rewritten` — contents along every way
    * `Initialized.swept` — deleted saves were not needed
    * `foldlM_initialized`, `lowerProgram_initialized` — all passes -/

namespace DecafBackend

/-! ## Copies -/

namespace Copies

variable {body after : Body} {graph : FlowGraph} {solution : Solution Copies}

/-- The variables that copies are made of have been saved. -/
def Carried (body : Body) (solution : Solution Copies) (passed : List Inst) (point : Point) :
    Prop :=
  ∃ copies, Ahead body solution point copies ∧ Bound body copies ∧
    ∀ dest src, copies.Has dest src → body.tracks src = true → src ∈ body.savedBy passed

/-- What is read through copies has been saved. -/
theorem saved_through {copies : Copies} {saved : Set Loc} {loc : Loc}
    (hcopies : ∀ dest src, copies.Has dest src → body.tracks src = true → src ∈ saved)
    (hloc : body.tracks loc = true → loc ∈ saved)
    (htracks : body.tracks (copies.through loc) = true) : copies.through loc ∈ saved := by
  rw [through] at htracks ⊢
  cases hsource : copies.source? loc with
  | none =>
      rw [hsource] at htracks
      exact hloc htracks
  | some src =>
      rw [hsource] at htracks
      exact hcopies loc src hsource htracks

/-- **SOURCES OF COPIES HAVE BEEN SAVED**, on every way. -/
theorem Propagated.carried (h : Propagated body after graph solution) (wf : WellFormed body)
    (hinitialized : body.Initialized) {passed : List Inst} {point : Point}
    (hway : body.Way (body.startOf ⟨0⟩) passed point) : Carried body solution passed point := by
  refine hway.along_flow wf h.flow ?_ ?_ ?_
  · -- nothing is a copy at the entry
    have hpath : ({} : Copies) ∈ (analysis body).contributions graph solution ⟨0⟩ := by
      have hboundary : (analysis body).isBoundary graph ⟨0⟩ = true :=
        beq_iff_eq.mpr (h.flow.entry wf.blocks_pos)
      rw [Analysis.contributions, if_pos hboundary]
      exact List.mem_append_left _ List.mem_cons_self
    obtain ⟨input, hahead, hinput, hless⟩ :=
      ahead_startOf h.flow h.settled h.bound wf.blocks_pos hpath
    exact ⟨input, hahead, hinput, fun dest src hhas => absurd (hless dest src hhas) not_has_empty⟩
  · rintro early block stmt rest hearly hat ⟨copies, ⟨before, input, hsplit, hinput, hsteps⟩,
      hbound, hcopies⟩
    obtain ⟨command, hcommand, hvalid⟩ := wf.command_of_mem hat.mem
    obtain ⟨next, hstep, hhas⟩ := step_spec hbound hcommand hvalid
    have hsplit' : body.stmtsOf block = (before ++ [stmt]) ++ rest := by
      rw [List.append_assoc]
      exact hsplit
    refine ⟨next, ⟨before ++ [stmt], input, hsplit', hinput, ?_⟩,
      hbound.step hcommand hvalid hstep, fun dest src hnext htracks => ?_⟩
    · rw [List.foldlM_append, hsteps]
      simp only [bind, Except.bind, List.foldlM_cons, hstep]
      rfl
    -- a copy is made by this save, or was one before it
    · rw [Body.savedBy_append]
      refine Or.inl ?_
      rcases (hhas dest src).mp hnext with ⟨loaded, rfl, rfl, -⟩ | ⟨hold, -⟩
      · -- the save reads what has been saved
        refine saved_through hcopies (fun hloaded => ?_) htracks
        exact hinitialized _ _ _ hearly ⟨stmt, rest, _, rfl, hcommand, List.mem_cons_self⟩ hloaded
      · exact hcopies dest src hold htracks
  · rintro early block target hlt hlt' htarget ⟨copies, hahead, -, hcopies⟩
    have hpath := mem_contributions_of_end h.flow h.settled hlt htarget hahead
    obtain ⟨input, hinput, hinputBound, hless⟩ := ahead_startOf h.flow h.settled h.bound hlt' hpath
    exact ⟨input, hinput, hinputBound, fun dest src hhas => hcopies dest src (hless dest src hhas)⟩

end Copies

namespace Body

variable {body after : Body}

/-- **COPY PROPAGATION KEEPS BODIES INITIALIZED**. -/
theorem Initialized.propagated {graph : FlowGraph} {solution : Solution Copies}
    (h : body.Initialized) (wf : WellFormed body)
    (hpropagated : Copies.Propagated body after graph solution) : after.Initialized := by
  have hpieces := pieces_propagated wf hpropagated
  rintro passed' ⟨block, _⟩ access hway ⟨piece, more, new, rfl, hnew, haccess⟩ htracks
  obtain ⟨passed, stmt, tail, front, back, hbody, hat, hone, rfl⟩ := hpieces.way_of wf hway
  obtain ⟨rfl, rfl⟩ : front = [] ∧ piece = stmt := by
    cases front with
    | nil => cases hone; exact ⟨rfl, rfl⟩
    | cons first front => cases front <;> cases hone
  rw [List.append_nil]
  obtain ⟨command, hcommand, -⟩ := wf.command_of_mem hat.mem
  obtain ⟨copies, hahead, -, hcopies⟩ := hpropagated.carried wf h hbody
  cases hnew.symm.trans (hpropagated.commands hahead hcommand)
  have htracks' : body.tracks access.loc = true := by
    rw [tracks, ← hpropagated.locations]
    exact htracks
  have hread : ∀ {old : Access}, old ∈ command.reads piece → body.tracks old.loc = true →
      old.loc ∈ body.savedBy passed :=
    fun hold => h _ _ _ hbody ⟨piece, tail, command, rfl, hcommand, hold⟩
  have hsaved : access.loc ∈ body.savedBy passed := by
    rcases Command.mem_reads_mapLoads haccess with hold | ⟨old, hold, rfl⟩
    · exact hread hold htracks'
    · exact Copies.saved_through hcopies (hread hold) htracks'
  refine Pieces.savedBy_subset (fun stmt hstmt loc hsaves => ?_) hsaved
  obtain ⟨value, hsave⟩ := hsaves
  obtain ⟨block, rest, copies', hahead', -⟩ :=
    hpropagated.ahead_of_mem wf (hbody.mem_stmts wf (At.start wf.blocks_pos) stmt hstmt)
  exact ⟨stmt, List.mem_cons_self, _, hpropagated.commands hahead' hsave⟩

/-! ## Dead saves -/

/-- A read that control comes to is reached by a save that does something. -/
theorem Initialized.busy_save {dead : List Inst} (h : body.Initialized) (wf : WellFormed body)
    (hdead : ∀ stmt ∈ dead, DeadSaves.Idle body stmt) (n : Nat) {passed : List Inst} {point : Point}
    {access : Access} (hlength : passed.length = n)
    (hway : body.Way (body.startOf ⟨0⟩) passed point) (hreads : body.ReadsBy access point)
    (htracks : body.tracks access.loc = true) :
    ∃ stmt ∈ passed, stmt ∉ dead ∧ body.Saves stmt access.loc := by
  -- induction on the length of the way: a copy of the location to itself reads it before
  induction n using Nat.strongRecOn generalizing passed point access with
  | ind n ih =>
      obtain ⟨before, stmt, behind, value, block, rest, rfl, hsave, hbefore, hlive⟩ :=
        hway.save_reaches hreads (h _ _ _ hway hreads htracks)
      by_cases hmem : stmt ∈ dead
      · obtain ⟨value', dest, hsave', -, hidle⟩ := hdead stmt hmem
        cases hsave.symm.trans hsave'
        have hat := hbefore.at wf (At.start wf.blocks_pos)
        rcases hidle with hnone | ⟨inst, rfl⟩
        · exact absurd hlive (hnone block rest hat access rfl)
        · obtain ⟨other, hother, hbusy, hsaves⟩ :=
            @ih before.length (by rw [← hlength, List.length_append, List.length_cons]; omega)
              before ⟨block, stmt :: rest⟩ ⟨inst, access.loc⟩ rfl hbefore
              ⟨stmt, rest, _, rfl, hsave, List.mem_cons_self⟩ htracks
          exact ⟨other, List.mem_append_left _ hother, hbusy, hsaves⟩
      · exact ⟨stmt, List.mem_append_right _ List.mem_cons_self, hmem, value, hsave⟩

/-- **DELETING SAVES THAT DO NOTHING KEEPS BODIES INITIALIZED**. -/
theorem Initialized.swept {dead : List Inst} (h : body.Initialized) (wf : WellFormed body)
    (hdead : ∀ stmt ∈ dead, DeadSaves.Idle body stmt) :
    (DeadSaves.sweep body dead).Initialized := by
  rintro passed' ⟨block, _⟩ access hway ⟨piece, more, new, rfl, hnew, haccess⟩ htracks
  obtain ⟨passed, stmt, tail, front, back, hbody, hat, hleft, rfl⟩ :=
    (pieces_sweep wf dead).way_of wf hway
  rw [DeadSaves.command?_sweep] at hnew
  -- what is left of a statement reads what the statement reads
  have hreads : body.ReadsBy access ⟨block, stmt :: tail⟩ := by
    have hpiece : piece ∈ DeadSaves.leftOf body dead stmt :=
      hleft ▸ List.mem_append_right _ List.mem_cons_self
    rcases DeadSaves.leftOf_cases body dead stmt with hkept | ⟨value, dest, hsave, -, hcall⟩
    · rw [hkept, List.mem_singleton] at hpiece
      subst hpiece
      exact ⟨piece, tail, new, rfl, hnew, haccess⟩
    · rw [hcall, Option.mem_toList] at hpiece
      cases value with
      | call made target args isExternal saved =>
          cases hpiece
          cases hnew.symm.trans (Body.command?_eq_some.mpr (Body.command?_eq_some.mp hsave).2 :
            body.command? piece = some (.call target args isExternal saved))
          exact ⟨stmt, tail, _, rfl, hsave, haccess⟩
      | load | param | unary | binary => cases hpiece
  obtain ⟨save, hmem, hbusy, hsaves⟩ := h.busy_save wf hdead _ rfl hbody hreads htracks
  refine ⟨save, List.mem_append_left _ (List.mem_flatMap.mpr ⟨save, hmem, ?_⟩), ?_⟩
  · rcases DeadSaves.leftOf_cases body dead save with hkept | ⟨_, _, -, hgone, -⟩
    · exact hkept ▸ List.mem_cons_self
    · exact absurd hgone hbusy
  · obtain ⟨value, hsave⟩ := hsaves
    exact ⟨value, (DeadSaves.command?_sweep save).trans hsave⟩

/-- Rounds of deletions keep bodies initialized. -/
theorem Initialized.deleteWithin {graph : FlowGraph} {rounds deleted count : Nat}
    (h : body.Initialized) (wf : WellFormed body) (hflow : graph.Of body)
    (hdelete : DeadSaves.deleteWithin graph rounds deleted body = .ok (count, after)) :
    after.Initialized := by
  induction rounds generalizing body deleted with
  | zero => cases hdelete
  | succ rounds ih =>
      rcases DeadSaves.deleteWithin_cases wf hflow hdelete
        with ⟨-, rfl, -⟩ | ⟨dead, -, hdead, hdelete⟩
      · exact h
      · exact ih (h.swept wf fun stmt hstmt => (hdead stmt hstmt).2) (DeadSaves.sweep_wellFormed wf)
          (DeadSaves.sweep_flow wf hflow) hdelete

end Body

/-! ## Common subexpressions -/

namespace CommonTerms

/-- The variables and temporaries that have contents are those that have been saved. -/
def Filled (body : Body) (store : Store) (saved : Set Loc) : Prop :=
  ∀ loc, body.tracks loc = true → ((store.locals loc).isSome = true ↔ loc ∈ saved)

section

variable {setting : Setting} {body : Body} {store store' : Store} {saved : Set Loc} {loc : Loc}

/-- A tracked location is read from the variables. -/
theorem read_of_tracks (h : body.tracks loc = true) :
    body.read setting store loc = store.locals loc := by
  rw [Body.tracks] at h
  rw [Body.read]
  cases hplace : body.locations[loc.index]? with
  | none => rw [hplace] at h; cases h
  | some location =>
      cases location with
      | localVar | temp => rfl
      | global | constant | literal => rw [hplace] at h; cases h

/-- What has been saved can be read. -/
theorem Filled.read_ok (h : Filled body store saved) (hlt : loc.index < body.locations.size)
    (hsaved : body.tracks loc = true → loc ∈ saved) :
    ∃ word, body.read setting store loc = some word := by
  cases htracks : body.tracks loc with
  | true =>
      rw [read_of_tracks htracks]
      exact Option.isSome_iff_exists.mp ((h loc htracks).mpr (hsaved htracks))
  | false =>
      rw [Body.tracks, Array.getElem?_eq_getElem hlt] at htracks
      rw [Body.read, Array.getElem?_eq_getElem hlt]
      cases hplace : body.locations[loc.index] with
      | localVar | temp => rw [hplace] at htracks; cases htracks
      | global | constant | literal => exact ⟨_, rfl⟩

/-- A write fills its destination. -/
theorem Filled.write (h : Filled body store saved) {dest : Loc} {word : Word}
    (hwrite : body.write setting store dest word = some store') :
    Filled body store' (saved ∪ {dest}) := by
  obtain ⟨location, hlocation, hwrite⟩ := Option.bind_eq_some_iff.mp hwrite
  intro loc htracks
  have hlocal : store' = store.setLocal dest word →
      ((store'.locals loc).isSome = true ↔ loc ∈ saved ∪ {dest}) := by
    rintro rfl
    by_cases hsame : loc = dest
    · rw [hsame, Store.setLocal_locals_same]
      exact iff_of_true rfl (Or.inr rfl)
    · rw [Store.setLocal_locals_other hsame, h loc htracks]
      exact (or_iff_left hsame).symm
  cases location with
  | global name =>
      cases hwrite
      have hother : loc ≠ dest := by
        rintro rfl
        rw [Body.tracks, hlocation] at htracks
        cases htracks
      exact (h loc htracks).trans (or_iff_left hother).symm
  | localVar | temp => exact hlocal (Option.some.inj hwrite).symm
  | constant | literal => cases hwrite

/-- A term has a value if its operands do and no operator traps. -/
theorem eval_ok {arithmetic : Arithmetic} {read : Loc → Option Word} {term : Term}
    (htotal : ∀ op a b, ∃ word, arithmetic.apply op a b = some word)
    (h : ∀ loc ∈ term.operands, ∃ word, read loc = some word) :
    ∃ word, term.eval arithmetic read = some word := by
  cases term with
  | leaf loc => exact h loc List.mem_cons_self
  | unary op operand =>
      obtain ⟨word, hword⟩ := h operand List.mem_cons_self
      exact ⟨op.apply word, by rw [Term.eval, hword]; rfl⟩
  | binary op lhs rhs =>
      obtain ⟨a, ha⟩ := h lhs List.mem_cons_self
      obtain ⟨b, hb⟩ := h rhs (List.mem_cons_of_mem _ List.mem_cons_self)
      obtain ⟨word, hword⟩ := htotal op a b
      exact ⟨word, by rw [Term.eval, ha, hb]; exact hword⟩

end

section

variable {setting : Setting} {original body after : Body} {temps : Std.ExtTreeMap Inst Loc}
  {graph : FlowGraph} {solution : Solution Available} {sets : DisjointSets .loc}
  {edits : List Edit} {visits : List Visit} {copies : Inst → List Inst}
  (h : Rewritten original body after temps graph solution sets edits visits copies)
include h

/-- The rewriting tracks what the prepared body does. -/
theorem Rewritten.tracks_eq (loc : Loc) : after.tracks loc = body.tracks loc := by
  rw [Body.tracks, Body.tracks, h.locations]

/-- Old locations are tracked as in the original. -/
theorem Rewritten.tracks_low {loc : Loc} (hlow : loc.index < original.locations.size) :
    after.tracks loc = original.tracks loc := by
  rw [Body.tracks, Body.tracks, h.locations, h.sited.old hlow]

/-- Saves stay, whatever they store. -/
theorem Rewritten.saves {stmt : Inst} {loc : Loc} (hstmt : stmt ∈ original.stmts)
    (hsaves : original.Saves stmt loc) : after.Saves stmt loc := by
  obtain ⟨value, hsave⟩ := hsaves
  by_cases hreused : ∃ source, Edit.reuse stmt source ∈ edits
  · obtain ⟨source, hsource⟩ := hreused
    obtain ⟨load, hload⟩ := h.reused hstmt hsave hsource
    exact ⟨_, hload⟩
  · exact ⟨value, h.kept hstmt hsave fun source hsource => hreused ⟨source, hsource⟩⟩

/-- What is saved in the original is saved in the changed body. -/
theorem Rewritten.savedBy_subset {passed : List Inst}
    (hstmts : ∀ stmt ∈ passed, stmt ∈ original.stmts) :
    original.savedBy passed ⊆ after.savedBy (passed.flatMap fun stmt => stmt :: copies stmt) :=
  Body.Pieces.savedBy_subset fun stmt hstmt _ hsaves =>
    ⟨stmt, List.mem_cons_self, h.saves (hstmts stmt hstmt) hsaves⟩

variable (hfields : setting.Separates original)
  (htotal : ∀ op a b, ∃ word, setting.arithmetic.apply op a b = some word)
include hfields htotal

/-- Contents are carried over a save and the copy behind it. -/
theorem Rewritten.fill_save {block : Block} {stmt : Inst} {rest : List Inst} {value : Value}
    {dest : Loc} {store : Store} {saved : Set Loc} (hstmt : stmt ∈ original.stmts)
    (hcommand : original.command? stmt = some (.save value dest))
    (hwalking : Walking setting original body temps solution sets visits block (stmt :: rest) store)
    (hfilled : Filled body store saved)
    (hreads : ∀ access ∈ value.reads, body.tracks access.loc = true → access.loc ∈ saved) :
    ∃ store', Walking setting original body temps solution sets visits block rest store' ∧
      Filled body store' (saved ∪ after.savedBy (stmt :: copies stmt)) := by
  have wf' := h.sited.wellFormed h.wf
  have hvalid := h.sited.valid (h.wf.valid hstmt hcommand)
  obtain ⟨location, hlocation, hwritable⟩ := hvalid.dest dest rfl
  -- the value of the term, or any word for what is no term
  obtain ⟨word, heval⟩ : ∃ word, ∀ {term}, value.term? = some term →
      term.eval setting.arithmetic (body.read setting store) = some word := by
    cases hterm : value.term? with
    | none => exact ⟨0, nofun⟩
    | some term =>
        have hoperands : ∀ loc ∈ term.operands,
            ∃ word, body.read setting store loc = some word := by
          intro loc hloc
          obtain ⟨access, haccess, rfl⟩ := Value.mem_operands_term hterm hloc
          exact hfilled.read_ok (hvalid.reads access haccess) (hreads access haccess)
        obtain ⟨word, heval⟩ := eval_ok htotal hoperands
        refine ⟨word, fun hsame => ?_⟩
        cases hsame
        exact heval
  obtain ⟨written, hwritten⟩ : ∃ written, body.write setting store dest word = some written :=
    Body.write_ok hlocation hwritable store word
  have heffect : ∀ {last : Store}, _ → _ → Effect setting original body temps sets stmt
      (.save value dest) store last := fun hothers hcopied =>
    h.effect_save hfields hstmt hcommand (fun _ => rfl) heval hwritten hothers hcopied
  obtain ⟨value', hsave⟩ := h.saves hstmt ⟨value, hcommand⟩
  have hfirst : after.savedBy [stmt] = {dest} := by
    rw [Body.savedBy_singleton hsave]
    ext loc
    exact ⟨fun heq => (Option.some.inj heq).symm, fun heq => congrArg some heq.symm⟩
  by_cases hremembered : ∃ temp, Edit.remember stmt temp ∈ edits
  · obtain ⟨temp, htemp⟩ := hremembered
    obtain ⟨copy, load, hcopies, hcopy⟩ := h.copied hstmt hcommand htemp
    obtain ⟨_, _, term, heq, hterm, hnot, hsite⟩ := (h.remember_iff hwalking hcommand).mp htemp
    cases heq
    obtain ⟨hhigh, hplace⟩ := h.root_temp hsite
    obtain ⟨last, hlast⟩ : ∃ last, body.write setting written (sets.root temp) word = some last :=
      Body.write_ok hplace rfl _ _
    refine ⟨last, h.walking_next hwalking hcommand (heffect ?_ ?_), ?_⟩
    · intro loc hloc
      exact Body.read_write_other wf' (h.sited.separates hfields) hlast
        fun heq => hloc hterm hnot hsite heq.symm
    · intro term' temp' _ _ hsite'
      cases hsite.symm.trans hsite'
      exact Body.read_write_same hlast
    · have hboth : after.savedBy (stmt :: copies stmt) = {dest} ∪ {sets.root temp} := by
        rw [hcopies, show [stmt, copy] = [stmt] ++ [copy] from rfl, Body.savedBy_append, hfirst,
          Body.savedBy_singleton hcopy]
        congr 1
        ext loc
        exact ⟨fun heq => (Option.some.inj heq).symm, fun heq => congrArg some heq.symm⟩
      rw [hboth, ← Set.union_assoc]
      exact (hfilled.write hwritten).write hlast
  · have hcopies := h.single fun temp htemp => hremembered ⟨temp, htemp⟩
    refine ⟨written, h.walking_next hwalking hcommand (heffect (fun _ => rfl) ?_), ?_⟩
    · intro term temp hterm hnot hsite
      exact (hremembered ⟨temp, (h.remember_iff hwalking hcommand).mpr
        ⟨_, _, _, rfl, hterm, hnot, hsite⟩⟩).elim
    · rw [hcopies, hfirst]
      exact hfilled.write hwritten

/-- **CONTENTS ALONG EVERY WAY**: whichever way control goes from the entry, there
    are contents as the walks over its blocks know them, and what has contents has
    been saved in the changed body. -/
theorem Rewritten.filled (hinitialized : original.Initialized) {passed : List Inst} {point : Point}
    (hway : original.Way (original.startOf ⟨0⟩) passed point) :
    ∃ store, Walking setting original body temps solution sets visits point.block point.rest
        store ∧
      Filled body store (after.savedBy (passed.flatMap fun stmt => stmt :: copies stmt)) := by
  refine @Body.Way.along_flow original (fun passed point => ∃ store,
    Walking setting original body temps solution sets visits point.block point.rest store ∧
      Filled body store (after.savedBy (passed.flatMap fun stmt => stmt :: copies stmt)))
    -- the walk is along the way in the original, with the statements of the changed body
    -- saved
    graph point passed h.wf h.flow hway ?_ ?_ ?_
  · refine ⟨⟨fun _ => none, fun _ => 0⟩, h.walking_start h.wf.blocks_pos _, fun loc _ => ?_⟩
    rw [List.flatMap_nil, Body.savedBy_nil]
    exact iff_of_false Bool.false_ne_true id
  · rintro early block stmt rest hearly hat ⟨store, hwalking, hfilled⟩
    have hstmt := Body.mem_stmts_of_stmtsOf hat.mem
    obtain ⟨command, hcommand, hvalid⟩ := h.wf.commands stmt hstmt
    rw [List.flatMap_append, List.flatMap_singleton, Body.savedBy_append]
    cases hdest : command.dest? with
    | none =>
        -- only saves are changed
        have hkept := h.kept hstmt hcommand fun source hedit => by
          obtain ⟨value, dest, -, -, rfl, -⟩ := h.reuse_spec hwalking hcommand hedit
          cases hdest
        have hcopies : copies stmt = [] := h.single fun temp hedit => by
          obtain ⟨value, dest, -, rfl, -⟩ := (h.remember_iff hwalking hcommand).mp hedit
          cases hdest
        refine ⟨store, h.walking_next hwalking hcommand (h.effect_idle hdest fun _ => rfl), ?_⟩
        have hnone : after.savedBy [stmt] = ∅ := by
          rw [Body.savedBy_singleton hkept, hdest]
          exact Set.eq_empty_iff_forall_notMem.mpr fun _ heq => by cases heq
        rw [hcopies, hnone, Set.union_empty]
        exact hfilled
    | some dest =>
        obtain ⟨value, hsave⟩ := (Body.saves_iff hcommand).mpr hdest
        cases hcommand.symm.trans hsave
        refine h.fill_save hfields htotal hstmt hcommand hwalking hfilled
          fun access haccess htracks => ?_
        rw [← h.tracks_eq, h.tracks_low (hvalid.reads access haccess)] at htracks
        exact h.savedBy_subset (hearly.mem_stmts h.wf (Body.At.start h.wf.blocks_pos))
          (hinitialized _ _ _ hearly ⟨stmt, rest, _, rfl, hcommand, haccess⟩ htracks)
  · rintro early block target hlt hlt' htarget ⟨store, hwalking, hfilled⟩
    exact ⟨store, h.walking_enter hwalking hlt htarget hlt', hfilled⟩

end

/-- Operators that never trap, and fields that never meet. -/
def lenientSetting : Setting where
  arithmetic := ⟨fun _ _ _ => some 0, fun _ _ _ _ => rfl⟩
  field name := String.ofList (List.replicate name.index 'a')
  routine _ := ""
  literal _ := 0
  environment _ := ⟨fun _ => 0, .ok 0⟩
  args _ := 0

/-- The fields of the lenient setting never meet. -/
theorem lenientSetting_separates (body : Body) : lenientSetting.Separates body := by
  rintro ⟨a⟩ ⟨b⟩ i j - - hsame
  have hlength := congrArg (fun text : String => text.toList.length) hsame
  simp only [lenientSetting, String.toList_ofList, List.length_replicate] at hlength
  rw [hlength]

/-- **ELIMINATING COMMON SUBEXPRESSIONS KEEPS BODIES INITIALIZED**. -/
theorem Rewritten.initialized {original body after : Body} {temps : Std.ExtTreeMap Inst Loc}
    {graph : FlowGraph} {solution : Solution Available} {sets : DisjointSets .loc}
    {edits : List Edit} {visits : List Visit} {copies : Inst → List Inst}
    (h : Rewritten original body after temps graph solution sets edits visits copies)
    (hpieces : Body.Pieces original after fun stmt => stmt :: copies stmt)
    (hinitialized : original.Initialized) : after.Initialized := by
  rintro passed' ⟨block, _⟩ access hway ⟨piece, more, new, rfl, hnew, haccess⟩ htracks
  obtain ⟨passed, stmt, tail, front, back, hbody, hat, hsplit, rfl⟩ := hpieces.way_of h.wf hway
  have hstmt := Body.mem_stmts_of_stmtsOf hat.mem
  obtain ⟨command, hcommand, hvalid⟩ := h.wf.commands stmt hstmt
  have hstmts := hbody.mem_stmts h.wf (Body.At.start h.wf.blocks_pos)
  -- the read is of a statement of the original, or of the copy behind it
  cases front with
  | nil =>
      cases hsplit
      rw [List.append_nil]
      by_cases hreused : ∃ source, Edit.reuse piece source ∈ edits
      · -- the source has contents, so it has been saved
        obtain ⟨source, hedit⟩ := hreused
        obtain ⟨store, hwalking, hfilled⟩ := h.filled (lenientSetting_separates original)
          (fun _ _ _ => ⟨0, rfl⟩) hinitialized hbody
        obtain ⟨value, dest, term, word, rfl, -, -, hread⟩ :=
          h.reuse_spec hwalking hcommand hedit
        obtain ⟨load, hload⟩ := h.reused hstmt hcommand hedit
        cases hnew.symm.trans hload
        cases List.mem_singleton.mp haccess
        rw [h.tracks_eq] at htracks
        rw [read_of_tracks htracks] at hread
        exact (hfilled _ htracks).mp (hread ▸ rfl)
      · have hkept := h.kept hstmt hcommand fun source hedit => hreused ⟨source, hedit⟩
        cases hnew.symm.trans hkept
        rw [h.tracks_low (hvalid.reads access haccess)] at htracks
        exact h.savedBy_subset hstmts
          (hinitialized _ _ _ hbody ⟨piece, tail, _, rfl, hcommand, haccess⟩ htracks)
  | cons first front =>
      -- a copy reads what the save in front of it writes
      injection hsplit with hfirst hcopies
      subst hfirst
      obtain ⟨temp, hedit⟩ : ∃ temp, Edit.remember stmt temp ∈ edits := by
        refine Classical.byContradiction fun hnone => ?_
        rw [h.single fun temp hedit => hnone ⟨temp, hedit⟩] at hcopies
        cases front <;> cases hcopies
      obtain ⟨-, -, value, dest, hsave⟩ := h.found.admits h.sited h.wf _ hedit
      have hsave : original.command? stmt = some (.save value dest) :=
        (h.sited.command?_eq stmt).symm.trans hsave
      obtain ⟨copy, load, hone, hcopy⟩ := h.copied hstmt hsave hedit
      obtain rfl : piece = copy := by
        have hmem : piece ∈ copies stmt := hcopies ▸ List.mem_append_right _ List.mem_cons_self
        rw [hone] at hmem
        exact List.mem_singleton.mp hmem
      cases hnew.symm.trans hcopy
      cases List.mem_singleton.mp haccess
      exact ⟨stmt, List.mem_append_right _ List.mem_cons_self, h.saves hstmt ⟨value, hsave⟩⟩

end CommonTerms

/-! ## Passes -/

namespace Pass

variable {steps : Nat} {changed : Bool} {body after : Body}

/-- **A PASS KEEPS A BODY INITIALIZED**, where common subexpressions are eliminated
    before there are temporaries. -/
theorem initialized_run {pass : Pass} (wf : WellFormed body)
    (hpass : ofName? pass.name = some pass) (hno : pass = commonTerms → body.HasNoTemp)
    (h : body.Initialized) (hrun : pass.run steps body = .ok (changed, after)) :
    after.Initialized := by
  cases pass with
  | copies =>
      obtain ⟨graph, solution, hpropagated⟩ := copies_propagated wf hrun
      exact h.propagated wf hpropagated
  | deadSaves =>
      obtain ⟨⟨count, next⟩, hresult, hrun⟩ := Checked.bind_eq_ok hrun
      cases hrun
      obtain ⟨graph, hgraph, hflow⟩ := wf.flowGraph_ok
      rw [eliminateDeadSaves, hgraph] at hresult
      exact h.deleteWithin wf hflow hresult
  | commonTerms =>
      obtain ⟨count, graph, temps, sited, solution, hresult, hgraph, htemps, hsolve⟩ :=
        commonTerms_solved hrun
      obtain ⟨_, _, htemps', hsited⟩ := CommonTerms.siteTemps_ok wf
      cases htemps.symm.trans htemps'
      have hrenamed := CommonTerms.eliminateCommonTerms_renamed wf
        (CommonTerms.relates_related (hno rfl) hsited) hgraph htemps hsolve
      rw [hresult] at hrenamed
      obtain ⟨wf', sets, edits, visits, copies, changed, hfound, hshape, hrenamed⟩ := hrenamed
      have hrewritten := CommonTerms.rewritten_of_shape wf hsited (FlowGraph.of_ofBody hgraph)
        (settled_of_solve hsolve) (CommonTerms.flowing_solution hsited wf hsolve) hfound hshape
        hrenamed
      exact hrewritten.initialized (Body.pieces_renamed wf' hsited hshape
        (fun edit hedit => (hfound.admits hsited wf edit hedit).2.2) hrenamed) h
  | registers palette => cases hpass

/-- Only the elimination of common subexpressions makes temporaries. -/
theorem hasNoTemp_run {pass : Pass} (wf : WellFormed body)
    (hpass : ofName? pass.name = some pass) (hne : pass ≠ commonTerms) (h : body.HasNoTemp)
    (hrun : pass.run steps body = .ok (changed, after)) : after.HasNoTemp := by
  have hlocations : after.locations = body.locations := by
    cases pass with
    | copies => exact (copies_kept wf hrun).2
    | deadSaves => exact (deadSaves_kept wf hrun).2
    | commonTerms => exact absurd rfl hne
    | registers palette => cases hpass
  rw [Body.HasNoTemp, hlocations]
  exact h

/-- **PASSES KEEP A BODY INITIALIZED**, with at most one elimination of common
    subexpressions among them. -/
theorem foldlM_initialized {passes : List Pass} {start : Bool} {result : Bool × Body}
    (wf : WellFormed body) (hpasses : ∀ pass ∈ passes, ofName? pass.name = some pass)
    (honce : passes.count commonTerms ≤ 1) (hno : commonTerms ∈ passes → body.HasNoTemp)
    (h : body.Initialized)
    (hrun : passes.foldlM (runNext steps) (start, body) = .ok result) :
    WellFormed result.2 ∧ result.2.Initialized := by
  induction passes generalizing body start with
  | nil =>
      cases hrun
      exact ⟨wf, h⟩
  | cons pass rest ih =>
      rw [List.foldlM_cons] at hrun
      obtain ⟨state, hnext, hlater⟩ := Checked.bind_eq_ok hrun
      obtain ⟨⟨this, next⟩, hthis, hstate⟩ := Checked.bind_eq_ok hnext
      cases hstate
      have hpass := hpasses pass List.mem_cons_self
      obtain ⟨pieces, hpieces, -⟩ := Body.pieces_run wf hpass hthis
      have hinitialized := initialized_run wf hpass
        (fun heq => hno (heq ▸ List.mem_cons_self)) h hthis
      refine ih hpieces.wellFormed
        (fun other hother => hpasses other (List.mem_cons_of_mem _ hother))
        (Nat.le_trans List.count_le_count_cons honce) (fun hmem => ?_) hinitialized hlater
      -- the one elimination is still to come
      have hne : pass ≠ commonTerms := by
        rintro rfl
        have hone : 0 < rest.count commonTerms := List.count_pos_iff.mpr hmem
        rw [List.count_cons_self] at honce
        omega
      exact hasNoTemp_run wf hpass hne (hno (List.mem_cons_of_mem _ hmem)) hthis

end Pass

namespace Lowering

open Source

/-- **NO VARIABLE IS READ BEFORE IT IS WRITTEN**: in every body of a program, and in
    whatever it becomes along the pipeline, nothing is live at the entry; on every
    way from the entry a variable or temporary is saved before it is read; and no
    web without definitions is read on such a way. -/
theorem lowerProgram_initialized (program : Program) {body : Body}
    (hbody : body ∈ (lowerProgram program).methods) {passes : List Pass}
    (hpasses : passes <+: [.copies, .commonTerms, .copies, .deadSaves]) {steps : Nat}
    {changed : Bool} {after : Body}
    (hrun : Pass.runAll steps passes body = .ok (changed, after)) :
    (∃ entry liveness, after.entry? = some entry ∧ Liveness.ofBody after = .ok liveness ∧
        liveness.liveIn entry = .ok ∅) ∧
      (∀ passed point access, after.Way (after.startOf ⟨0⟩) passed point →
        after.ReadsBy access point → after.tracks access.loc = true →
          ∃ stmt ∈ passed, after.Saves stmt access.loc) ∧
      ∃ webs, Webs.ofBody after = .ok webs ∧ ∀ web ∈ webs.webs, web.isDefless = true →
        ∀ inst ∈ web.uses, ∀ passed point, after.Way (after.startOf ⟨0⟩) passed point →
          ¬ after.ReadsBy ⟨inst, web.loc⟩ point := by
  obtain ⟨method, -, symbols, rfl, -⟩ := exists_lowered hbody
  have hnamed : ∀ pass ∈ passes, Pass.ofName? pass.name = some pass := by
    have hall : ∀ pass ∈ [Pass.copies, .commonTerms, .copies, .deadSaves],
        Pass.ofName? pass.name = some pass := by decide
    exact fun pass hmem => hall pass (hpasses.subset hmem)
  have honce : passes.count .commonTerms ≤ 1 := hpasses.sublist.count_le _
  obtain ⟨wf, h⟩ := Pass.foldlM_initialized (lowerMethod_regular symbols method).wellFormed hnamed
    honce (fun _ => lowerMethod_hasNoTemp symbols method) (lowerMethod_initialized symbols method)
    hrun
  obtain ⟨liveness, hliveness, hempty⟩ := h.liveIn wf
  refine ⟨⟨⟨0⟩, liveness, ?_, hliveness, hempty⟩, h, h.not_reads_defless wf⟩
  rw [Body.entry?, if_neg]
  rw [Array.isEmpty_iff_size_eq_zero]
  exact Nat.ne_of_gt wf.blocks_pos

/-- A program whose method reads a variable behind a join, a loop and a sum that is
    computed on both sides. -/
def readingBehindLoop : Program where
  fields := ["total"]
  methods := [{
    name := "main"
    params := ["a", "b"]
    returnsValue := true
    body := .mk ["x", "y"]
      [.cond (.var "a")
          (.mk [] [.assign "x" .assign (.binary (.strict .add) (.var "a") (.var "b"))])
          (some (.mk [] [.assign "y" .assign (.binary (.strict .add) (.var "a") (.var "b"))])),
        .whileLoop (.var "x") (.mk [] [.assign "x" .assign (.var "y")]),
        .assign "total" .addAssign (.binary (.strict .add) (.var "a") (.var "b")),
        .ret (some (.var "x"))] }]

/-- The whole pipeline runs on the method, and nothing is live at its entry. -/
theorem readingBehindLoop_initialized : ∃ body ∈ (lowerProgram readingBehindLoop).methods,
    ∃ after entry liveness,
      Pass.runAll 80 [.copies, .commonTerms, .copies, .deadSaves] body = .ok (true, after) ∧
      after.entry? = some entry ∧ Liveness.ofBody after = .ok liveness ∧
      liveness.liveIn entry = .ok ∅ := by
  have htest : (lowerProgram readingBehindLoop).methods[0]?.any (fun body =>
      (Pass.runAll 80 [.copies, .commonTerms, .copies, .deadSaves] body).toOption.any Prod.fst) =
        true := by decide +kernel
  obtain ⟨body, hfirst, htest⟩ := (Option.any_eq_true _ _).mp htest
  have hbody := Array.mem_of_getElem? hfirst
  obtain ⟨⟨changed, after⟩, hrun, hchanged⟩ := Checked.exists_of_test htest
  obtain rfl : changed = true := hchanged
  obtain ⟨⟨entry, liveness, hentry, hliveness, hempty⟩, -⟩ :=
    lowerProgram_initialized readingBehindLoop hbody List.prefix_rfl hrun
  exact ⟨body, hbody, after, entry, liveness, hrun, hentry, hliveness, hempty⟩

end Lowering

end DecafBackend
