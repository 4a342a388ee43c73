import DecafBackend.Proofs.CommonTermsConvergence
import DecafBackend.Proofs.CommonTermsExactness

/-! # Nothing is computed again inside a block

    A save of a computation leaves its value in a temporary, under the number of
    the term.  The table keeps the number of the term as long as no operand is
    written, whatever else is numbered in the meantime, and the number keeps a
    temporary: writes go to locations that are older than all temporaries, and
    another save of the same number only puts its own temporary in the place.  So
    the next save of the term finds a temporary, whatever facts hold where the
    block starts.

    * `number?`, `Keeps` — numbers that a table knows, and those that it keeps
    * `Remembered` — a term whose value is left in a temporary
    * `remembered_first`, `remembered_move`, `remembered_steps` — it is left and stays there
    * `step_reuses`, `Rewritten.reuses` — a save that finds it
    * `eliminateCommonTerms_reuses` — computations that are replaced -/

namespace DecafBackend

namespace NumberTable

variable {table early late : NumberTable} {places : List Loc}

/-! ## Numbers that are known -/

/-- The number of a term, if the table has given it one. -/
def number? (table : NumberTable) : Term → Option ValueNumber
  | .leaf loc => table.locs[loc]?
  | .unary op operand =>
    table.locs[operand]?.bind fun number => table.terms.lookup (.unary op number)
  | .binary op lhs rhs =>
    table.locs[lhs]?.bind fun a => table.locs[rhs]?.bind fun b =>
      table.terms.lookup (if op.isCommutative ∧ b < a then .binary op b a else .binary op a b)

/-- A later table that still has the numbers of some locations, and of all terms. -/
structure Keeps (places : List Loc) (early late : NumberTable) : Prop where
  locs : ∀ {loc : Loc} {number : ValueNumber}, loc ∈ places →
    early.locs[loc]? = some number → late.locs[loc]? = some number
  terms : ∀ {term : NumberedTerm} {number : ValueNumber},
    early.terms.lookup term = some number → late.terms.lookup term = some number

theorem Keeps.refl : Keeps places table table := ⟨fun _ h => h, fun h => h⟩

/-- What is kept over both of two tables. -/
theorem Keeps.trans {mid : NumberTable} (h : Keeps places early mid) (h' : Keeps places mid late) :
    Keeps places early late :=
  ⟨fun hloc hnumber => h'.locs hloc (h.locs hloc hnumber),
    fun hnumber => h'.terms (h.terms hnumber)⟩

/-- The number of a term is kept with those of its operands. -/
theorem Keeps.number? {term : Term} {number : ValueNumber} (h : Keeps term.operands early late)
    (hnumber : early.number? term = some number) : late.number? term = some number := by
  cases term with
  | leaf loc => exact h.locs List.mem_cons_self hnumber
  | unary op operand =>
      obtain ⟨a, ha, hterm⟩ := Option.bind_eq_some_iff.mp hnumber
      rw [NumberTable.number?, h.locs List.mem_cons_self ha]
      exact h.terms hterm
  | binary op lhs rhs =>
      obtain ⟨a, ha, hnumber⟩ := Option.bind_eq_some_iff.mp hnumber
      obtain ⟨b, hb, hterm⟩ := Option.bind_eq_some_iff.mp hnumber
      rw [NumberTable.number?, h.locs List.mem_cons_self ha,
        h.locs (List.mem_cons_of_mem _ List.mem_cons_self) hb]
      exact h.terms hterm

/-- A number for a location changes no other number. -/
theorem keeps_ofLoc (loc : Loc) : Keeps places table (table.ofLoc loc).2 := by
  rw [ofLoc]
  cases hloc : table.locs[loc]? with
  | some number => exact .refl
  | none =>
      refine ⟨fun {other number} _ hother => ?_, fun h => h⟩
      have hne : other ≠ loc := by
        rintro rfl
        rw [hloc] at hother
        cases hother
      exact (Maps.getElem?_insert_ne hne).trans hother

/-- A number for a term changes no number of a location. -/
theorem keeps_ofNumbered (term : NumberedTerm) : Keeps places table (table.ofNumbered term).2 := by
  rw [ofNumbered]
  cases hterm : table.terms.lookup term with
  | some number => exact .refl
  | none =>
      refine ⟨fun _ h => h, fun {other number} hother => ?_⟩
      have hne : (other == term) = false := by
        refine beq_eq_false_iff_ne.mpr ?_
        rintro rfl
        rw [hterm] at hother
        cases hother
      show List.lookup other ((term, _) :: table.terms) = some number
      rw [List.lookup_cons, hne]
      exact hother

/-- Numbering a term changes no number. -/
theorem keeps_ofTerm (term : Term) : Keeps places table (table.ofTerm term).2 := by
  cases term with
  | leaf loc => exact keeps_ofLoc loc
  | unary op operand => exact (keeps_ofLoc operand).trans (keeps_ofNumbered _)
  | binary op lhs rhs =>
      exact ((keeps_ofLoc lhs).trans (keeps_ofLoc rhs)).trans (keeps_ofNumbered _)

/-- A location that is no operand may be defined. -/
theorem keeps_define {loc : Loc} (hloc : loc ∉ places) (number : ValueNumber) :
    Keeps places table (table.define loc number) where
  locs {other _} hother hnumber := by
    have hne : other ≠ loc := fun heq => hloc (heq ▸ hother)
    exact (Maps.getElem?_insert_ne hne).trans hnumber
  terms h := h

theorem keeps_remember (number : ValueNumber) (temp : Loc) :
    Keeps places table (table.remember number temp) := ⟨fun _ h => h, fun h => h⟩

/-- A call keeps the numbers of the operands it spares. -/
theorem Spared.keeps {body : Body} (h : Spared body early late)
    (hplaces : ∀ loc ∈ places, body.isGlobal loc = .ok false) : Keeps places early late where
  locs hloc hnumber := (h.kept (hplaces _ hloc)).trans hnumber
  terms hnumber := h.terms ▸ hnumber

/-- A location has the number that it was given. -/
theorem locs_ofLoc (loc : Loc) : (table.ofLoc loc).2.locs[loc]? = some (table.ofLoc loc).1 := by
  rw [ofLoc]
  cases hloc : table.locs[loc]? with
  | some number => exact hloc
  | none => exact Std.ExtTreeMap.getElem?_insert_self

/-- A term has the number that it was given. -/
theorem lookup_ofNumbered (term : NumberedTerm) :
    (table.ofNumbered term).2.terms.lookup term = some (table.ofNumbered term).1 := by
  rw [ofNumbered]
  cases hterm : table.terms.lookup term with
  | some number => exact hterm
  | none => exact List.lookup_cons_self

/-- **A TERM THAT WAS NUMBERED** has its number. -/
theorem number?_ofTerm (term : Term) :
    (table.ofTerm term).2.number? term = some (table.ofTerm term).1 := by
  cases term with
  | leaf loc => exact locs_ofLoc loc
  | unary op operand =>
      have hlater := @keeps_ofNumbered (table.ofLoc operand).2 [operand]
        (.unary op (table.ofLoc operand).1)
      have hoperand := hlater.locs List.mem_cons_self (locs_ofLoc operand)
      rw [number?, ofTerm, hoperand]
      exact lookup_ofNumbered _
  | binary op lhs rhs =>
      let mid := (table.ofLoc lhs).2
      let a := (table.ofLoc lhs).1
      let b := (mid.ofLoc rhs).1
      have hlater := @keeps_ofNumbered (mid.ofLoc rhs).2 [lhs, rhs]
        (if op.isCommutative ∧ b < a then .binary op b a else .binary op a b)
      have hkept : Keeps [lhs] mid (mid.ofLoc rhs).2 := keeps_ofLoc rhs
      have hlhs := hlater.locs List.mem_cons_self (hkept.locs List.mem_cons_self (locs_ofLoc lhs))
      have hrhs := hlater.locs (List.mem_cons_of_mem _ List.mem_cons_self) (locs_ofLoc rhs)
      rw [number?, ofTerm, hlhs, hrhs]
      exact lookup_ofNumbered _

/-- **A TERM THAT HAS A NUMBER** is not numbered again. -/
theorem ofTerm_eq {term : Term} {number : ValueNumber} (h : table.number? term = some number) :
    table.ofTerm term = (number, table) := by
  have hloc : ∀ {loc : Loc} {n : ValueNumber}, table.locs[loc]? = some n →
      table.ofLoc loc = (n, table) := fun hn => by rw [ofLoc, hn]
  have hnumbered : ∀ {t : NumberedTerm} {n : ValueNumber}, table.terms.lookup t = some n →
      table.ofNumbered t = (n, table) := fun hn => by rw [ofNumbered, hn]
  cases term with
  | leaf loc => exact hloc h
  | unary op operand =>
      obtain ⟨a, ha, hterm⟩ := Option.bind_eq_some_iff.mp h
      rw [ofTerm, hloc ha]
      exact hnumbered hterm
  | binary op lhs rhs =>
      obtain ⟨a, ha, h⟩ := Option.bind_eq_some_iff.mp h
      obtain ⟨b, hb, hterm⟩ := Option.bind_eq_some_iff.mp h
      rw [ofTerm, hloc ha]
      dsimp only
      rw [hloc hb]
      exact hnumbered hterm

/-! ## Terms that are remembered -/

/-- A term that has a number, whose value is left in a temporary. -/
def Remembered (table : NumberTable) (term : Term) : Prop :=
  ∃ number temp, table.number? term = some number ∧ table.temps[number]? = some temp

variable {term : Term}

/-- A term stays remembered as long as its operands keep their numbers. -/
theorem Remembered.keeps (h : table.Remembered term) (hkeeps : Keeps term.operands table late)
    (htemps : ∀ {number : ValueNumber} {temp : Loc}, table.temps[number]? = some temp →
      ∃ temp' : Loc, late.temps[number]? = some temp') : late.Remembered term := by
  obtain ⟨number, temp, hnumber, htemp⟩ := h
  obtain ⟨temp', htemp'⟩ := htemps htemp
  exact ⟨number, temp', hkeeps.number? hnumber, htemp'⟩

/-- A number for another term forgets no term. -/
theorem Remembered.ofTerm (h : table.Remembered term) (other : Term) :
    (table.ofTerm other).2.Remembered term :=
  h.keeps (keeps_ofTerm other) fun htemp => ⟨_, (ofTerm_temps other).symm ▸ htemp⟩

/-- A location is written that no temporary of the table is. -/
theorem Remembered.define (h : table.Remembered term) {loc : Loc} (hloc : loc ∉ term.operands)
    (htemps : ∀ {number : ValueNumber} {temp : Loc}, table.temps[number]? = some temp → temp ≠ loc)
    (number : ValueNumber) : (table.define loc number).Remembered term := by
  refine h.keeps (keeps_define hloc number) fun {other temp} htemp => ⟨temp, ?_⟩
  simp only [NumberTable.define]
  rw [Std.ExtTreeMap.getElem?_filter', htemp, Option.filter_some,
    if_pos (decide_eq_true (htemps htemp))]

/-- A number may get another temporary. -/
theorem Remembered.remember (h : table.Remembered term) (number : ValueNumber) (temp : Loc) :
    (table.remember number temp).Remembered term := by
  refine h.keeps (keeps_remember number temp) fun {other old} hold => ?_
  simp only [NumberTable.remember]
  rw [Maps.getElem?_insert]
  split
  · exact ⟨temp, rfl⟩
  · exact ⟨old, hold⟩

end NumberTable

namespace CommonTerms

open NumberTable (Remembered)

variable {original body : Body} {temps : Std.ExtTreeMap Inst Loc}

/-! ## Saves of computations have temporaries -/

/-- A save of a computed term is a site. -/
theorem isSite_of_computation {stmt : Inst} {value : Value} {dest : Loc} {term : Term}
    (hcommand : body.command? stmt = some (.save value dest)) (hterm : value.term? = some term)
    (hcomputed : term.isLeaf = false) : isSite body stmt = .ok true := by
  have hparts := Body.command?_eq_some.mp hcommand
  rw [isSite, Body.record_eq hparts.1]
  have hvalue := hparts.2
  cases value with
  | load src => cases hterm; cases hcomputed
  | param | call => cases hterm
  | unary inst op operand =>
      simp only [Value.inst, Body.record_eq hvalue.1, bind, Except.bind]
      rfl
  | binary inst op lhs rhs =>
      simp only [Value.inst, Body.record_eq hvalue.1, bind, Except.bind]
      rfl

/-- Every site has a temporary. -/
theorem mem_siteTemps (h : siteTemps original = .ok (temps, body)) {stmt : Inst}
    (hstmt : stmt ∈ original.stmts) (hsite : isSite original stmt = .ok true) :
    ∃ temp, temps[stmt]? = some temp := by
  obtain ⟨sites, hsites, h⟩ := Checked.bind_eq_ok h
  obtain ⟨test, htest, rfl⟩ := Checked.filterM_eq_ok hsites
  have hpassed : stmt ∈ original.stmts.filter test := by
    refine List.mem_filter.mpr ⟨hstmt, ?_⟩
    have hresult := htest stmt hstmt
    rw [hsite] at hresult
    exact (Except.ok.inj hresult).symm
  -- a site that has a temporary keeps it
  have hfold : ∀ {add : Std.ExtTreeMap Inst Loc × Body → Inst → Std.ExtTreeMap Inst Loc × Body},
      (∀ state site, (add state site).1 = state.1.insert site ⟨state.2.locations.size⟩) →
      ∀ (sites : List Inst) (state : Std.ExtTreeMap Inst Loc × Body),
        stmt ∈ sites ∨ stmt ∈ state.1 → stmt ∈ (sites.foldl add state).1 := by
    intro add hadd sites
    induction sites with
    | nil => exact fun state hmem => hmem.resolve_left List.not_mem_nil
    | cons site sites ih =>
        intro state hmem
        refine ih _ ?_
        rw [hadd, Maps.mem_insert]
        rcases hmem with hmem | hold
        · exact (List.mem_cons.mp hmem).elim (fun heq => Or.inr (Or.inl heq)) Or.inl
        · exact Or.inr (Or.inr hold)
  have hall := Checked.pure_eq_ok h
  refine Maps.mem_iff.mp (?_ : stmt ∈ (temps, body).1)
  rw [← hall]
  exact hfold (fun _ _ => rfl) _ (∅, original) (Or.inl hpassed)

/-! ## From one save to the next -/

section

variable {passed : List Inst} {stmt : Inst} {command : Command} {walk next : Walk} {term : Term}

/-- What a walk remembers is in the temporaries of statements that it has passed. -/
theorem Tracked.temp_ne (h : Tracked original body temps passed walk)
    (hsited : Sited original body temps) (hnew : stmt ∉ passed) {number : ValueNumber}
    {temp new : Loc} (htemp : walk.table.temps[number]? = some temp)
    (hstmt : temps[stmt]? = some new) : temp ≠ new := by
  obtain ⟨site, hsite, hsiteTemp⟩ := h.temps htemp
  rintro rfl
  exact hnew (hsited.injective hstmt hsiteTemp ▸ hsite)

/-- Temporaries are none of the old locations. -/
theorem Tracked.temp_ne_of_low (h : Tracked original body temps passed walk)
    (hsited : Sited original body temps) {number : ValueNumber} {temp loc : Loc}
    (htemp : walk.table.temps[number]? = some temp)
    (hlow : loc.index < original.locations.size) : temp ≠ loc := by
  obtain ⟨site, -, hsiteTemp⟩ := h.temps htemp
  rintro rfl
  exact absurd hlow (Nat.not_lt.mpr (hsited.temp hsiteTemp).1)

/-- A call forgets no term that it spares. -/
theorem remembered_called {called : Walk} (h : Remembered walk.table term)
    (hcalled : Called body stmt command walk called) (hspares : Spares body stmt command term) :
    Remembered called.table term := by
  cases hcalled with
  | silent => exact h
  | outward hcall hindexed hfacts hbounded hspared =>
      exact h.keeps (hspared.keeps (hspares.call hcall)) fun htemp => ⟨_, hspared.temps ▸ htemp⟩

/-- **A REMEMBERED TERM** stays remembered behind a statement that writes none of
    its operands. -/
theorem remembered_move (hsited : Sited original body temps)
    (htracked : Tracked original body temps passed walk) (hnew : stmt ∉ passed)
    (hlow : Low original stmt command)
    (hoperands : ∀ loc ∈ term.operands, loc.index < original.locations.size)
    (hspares : Spares body stmt command term) (hmove : Move body temps stmt command walk next)
    (h : Remembered walk.table term) : Remembered next.table term := by
  -- by the kind of the step: only a write to an operand could forget the term
  cases hmove with
  | idle hdest hcalled => exact remembered_called h hcalled hspares
  | @overwrite called value dest hsave hterm hcalled =>
      have hdest : command.dest? = some dest := by rw [hsave]; rfl
      have hold : Remembered called.table term := remembered_called h hcalled hspares
      have htemps := (hcalled.table htracked.table).2
      have hfresh : Remembered called.table.fresh.2 term := hold
      exact hfresh.define
        (hspares.dest dest hdest) (fun htemp => htracked.temp_ne_of_low hsited
          (htemps ▸ (show called.table.temps[_]? = _ from htemp)) (hlow.dest dest hdest)) _
  | @term value dest other source hsave hterm hsource =>
      have hdest : command.dest? = some dest := by rw [hsave]; rfl
      have hknown : ∀ {number : ValueNumber} {temp : Loc},
          (walk.table.ofTerm other).2.temps[number]? = some temp →
            walk.table.temps[number]? = some temp :=
        fun htemp => (@NumberTable.ofTerm_temps walk.table other) ▸ htemp
      have hwritten := (h.ofTerm other).define (hspares.dest dest hdest)
        (fun htemp => htracked.temp_ne_of_low hsited (hknown htemp) (hlow.dest dest hdest))
        (walk.table.ofTerm other).1
      rw [saved_table]
      split
      · exact hwritten
      · cases hstmt : temps[stmt]? with
        | none => exact hwritten
        | some new =>
            have hhigh : new ∉ term.operands := fun hmem =>
              absurd (hoperands new hmem) (Nat.not_lt.mpr (hsited.temp hstmt).1)
            have hcopied := hwritten.define hhigh (fun htemp => htracked.temp_ne hsited hnew
              (hknown (NumberTable.temps_define htemp).1) hstmt) (walk.table.ofTerm other).1
            dsimp only
            split
            · exact hcopied
            · exact hcopied.remember _ _

/-- A computation is remembered behind its save. -/
theorem remembered_saved (hsited : Sited original body temps) {temp dest : Loc}
    (hoperands : ∀ loc ∈ term.operands, loc.index < original.locations.size)
    (htemp : temps[stmt]? = some temp) (hcomputed : term.isLeaf = false)
    (hdest : dest ∉ term.operands) (source : Option Loc) :
    Remembered (saved temps walk stmt term dest source).table term := by
  have hhigh : temp ∉ term.operands := fun hmem =>
    absurd (hoperands temp hmem) (Nat.not_lt.mpr (hsited.temp htemp).1)
  rw [saved_table, if_neg (mentions_iff.not.mpr hdest), htemp]
  dsimp only
  rw [hcomputed, if_neg Bool.false_ne_true]
  refine ⟨(walk.table.ofTerm term).1, temp, ?_, Std.ExtTreeMap.getElem?_insert_self⟩
  exact (((NumberTable.keeps_define hdest _).trans (NumberTable.keeps_define hhigh _)).trans
    (NumberTable.keeps_remember _ _)).number? (NumberTable.number?_ofTerm term)

/-- A computation is remembered behind the move over its save. -/
theorem remembered_first (hsited : Sited original body temps) {value : Value} {temp dest : Loc}
    (hmove : Move body temps stmt (.save value dest) walk next) (hterm : value.term? = some term)
    (hoperands : ∀ loc ∈ term.operands, loc.index < original.locations.size)
    (htemp : temps[stmt]? = some temp) (hcomputed : term.isLeaf = false)
    (hdest : dest ∉ term.operands) : Remembered next.table term := by
  cases hmove with
  | idle hnone => cases hnone
  | overwrite hsave hnone =>
      cases hsave
      rw [hterm] at hnone
      cases hnone
  | term hsave hvalue =>
      cases hsave
      rw [hterm] at hvalue
      cases hvalue
      exact remembered_saved hsited hoperands htemp hcomputed hdest _

/-- A save of a term looks for the term first. -/
theorem step_eq_saveTerm {value : Value} {dest : Loc}
    (hcommand : body.command? stmt = some (.save value dest)) (hterm : value.term? = some term) :
    Walk.step body temps walk stmt = walk.saveTerm body temps stmt term dest := by
  have hparts := Body.command?_eq_some.mp hcommand
  rw [Walk.step, Body.hasCall_eq hcommand, callInst?_of_term hterm]
  simp only [bind, Except.bind, pure, Except.pure, Option.isSome_none, Bool.false_eq_true,
    if_false, Body.record_eq hparts.1, termOf_eq hparts.2, hterm]

/-- **A SAVE OF A REMEMBERED TERM** loads it from the temporary. -/
theorem step_reuses (h : Remembered walk.table term) (hcomputed : term.isLeaf = false)
    {value : Value} {dest : Loc} (hcommand : body.command? stmt = some (.save value dest))
    (hterm : value.term? = some term)
    (hne : ∀ {number : ValueNumber} {temp : Loc},
      walk.table.temps[number]? = some temp → temp ≠ dest) :
    ∃ temp, Walk.step body temps walk stmt =
      .ok (saved temps walk stmt term dest (some temp)) := by
  obtain ⟨number, temp, hnumber, htemp⟩ := h
  have hsame := NumberTable.ofTerm_eq hnumber
  have hworth : worthReusing body term temp = .ok true := by
    cases term with
    | leaf loc => cases hcomputed
    | unary op operand => rfl
    | binary op lhs rhs => rfl
  have hsource : reuseSource body walk term number dest = .ok (some temp) := by
    rw [reuseSource, hcomputed, if_neg Bool.false_ne_true, htemp, Option.toList_some]
    simp only [List.singleton_append, List.findM?, if_neg (hne htemp), hworth, bind, Except.bind]
    rfl
  refine ⟨temp, ?_⟩
  rw [step_eq_saveTerm hcommand hterm, Walk.saveTerm, hsame]
  dsimp only
  rw [hsource]
  simp only [bind, Except.bind, saved, hsame]
  split
  · rfl
  · rfl

variable (hsited : Sited original body temps)
include hsited

/-- A statement that disturbs no operand of a term spares it. -/
theorem spares_of_undisturbed (hcommand : body.command? stmt = some command)
    (hoperands : ∀ loc ∈ term.operands, loc.index < original.locations.size)
    (h : ∀ loc ∈ term.operands, ¬ Disturbs original stmt loc) :
    Spares body stmt command term := by
  have hcommand' := (hsited.command?_eq stmt).symm.trans hcommand
  refine ⟨fun dest hdest hmem => ?_, fun hcall loc hloc => ?_⟩
  · exact h dest hmem (Or.inl ((saves_iff hcommand').mpr hdest))
  · refine (hsited.isGlobal_iff (Nat.lt_of_lt_of_le (hoperands loc hloc) hsited.grows)).mpr ?_
    refine fun hglobal => h loc hloc (Or.inr ⟨?_, hglobal⟩)
    rw [Body.hasCall_eq hcommand', hcall]

variable (wf : WellFormed original)
include wf

/-- A remembered term stays remembered behind statements that disturb none of
    its operands. -/
theorem remembered_steps {between : List Inst} (htracked : Tracked original body temps passed walk)
    (hnodup : (passed ++ between).Nodup) (hstmts : ∀ stmt ∈ between, stmt ∈ body.stmts)
    (hoperands : ∀ loc ∈ term.operands, loc.index < original.locations.size)
    (hspares : ∀ stmt ∈ between, ∀ loc ∈ term.operands, ¬ Disturbs original stmt loc)
    (h : Remembered walk.table term) :
    ∃ last, between.foldlM (Walk.step body temps) walk = .ok last ∧
      Tracked original body temps (passed ++ between) last ∧ Remembered last.table term := by
  -- by induction on the statements in between, none of which disturbs an operand
  induction between generalizing passed walk with
  | nil =>
      rw [List.append_nil]
      exact ⟨walk, rfl, htracked, h⟩
  | cons stmt between ih =>
      have hstmt := hstmts stmt List.mem_cons_self
      obtain ⟨command, hcommand, -⟩ := (hsited.wellFormed wf).commands stmt hstmt
      obtain ⟨next, hstep, hmove, -, hnext⟩ := htracked.step hsited wf hstmt hcommand
      have hnew : stmt ∉ passed := fun hmem =>
        (List.nodup_append.mp hnodup).2.2 stmt hmem stmt List.mem_cons_self rfl
      have hremembered := remembered_move hsited htracked hnew (hsited.low wf hstmt hcommand)
        hoperands (spares_of_undisturbed hsited hcommand hoperands
          (hspares stmt List.mem_cons_self)) hmove h
      rw [List.append_cons] at hnodup ⊢
      obtain ⟨last, hlast, hdone⟩ := ih hnext hnodup
        (fun other hother => hstmts other (List.mem_cons_of_mem _ hother))
        (fun other hother => hspares other (List.mem_cons_of_mem _ hother)) hremembered
      refine ⟨last, ?_, hdone⟩
      rw [List.foldlM_cons, hstep]
      exact hlast

end

/-- **THE SECOND SAVE OF A TERM** in a block is changed, if none of its operands
    is disturbed in between. -/
theorem Rewritten.reuses {after : Body} {graph : FlowGraph} {solution : Solution Available}
    {sets : DisjointSets .loc} {edits : List Edit} {visits : List Visit} {copies : Inst → List Inst}
    (h : Rewritten original body after temps graph solution sets edits visits copies)
    (htemps : siteTemps original = .ok (temps, body)) {block : Block}
    {before between rest : List Inst} {first second : Inst} {value value' : Value}
    {dest dest' : Loc} {term : Term}
    (hsplit : original.stmtsOf block = before ++ first :: (between ++ second :: rest))
    (hfirst : original.command? first = some (.save value dest)) (hterm : value.term? = some term)
    (hsecond : original.command? second = some (.save value' dest'))
    (hterm' : value'.term? = some term) (hcomputed : term.isLeaf = false)
    (hdest : dest ∉ term.operands)
    (hspares : ∀ stmt ∈ between, ∀ loc ∈ term.operands, ¬ Disturbs original stmt loc) :
    ∃ source, Edit.reuse second source ∈ edits := by
  have hsited := h.sited
  have hmem : ∀ stmt ∈ before ++ first :: (between ++ second :: rest), stmt ∈ body.stmts := by
    intro stmt hstmt
    rw [hsited.stmts_eq]
    exact Body.mem_stmts_of_stmtsOf (hsplit ▸ hstmt)
  have hfirstMem : first ∈ body.stmts := hmem first (by simp)
  have hsecondMem : second ∈ body.stmts := hmem second (by simp)
  rw [← hsited.command?_eq] at hfirst hsecond
  have hoperands : ∀ loc ∈ term.operands, loc.index < original.locations.size := by
    intro loc hloc
    obtain ⟨access, haccess, rfl⟩ := Value.mem_operands_term hterm hloc
    exact (hsited.low h.wf hfirstMem hfirst).reads access haccess
  -- the walk over the block from which the changes come
  have hin : second ∈ original.stmtsOf block := by simp [hsplit]
  obtain ⟨other, hlt, hother⟩ := Body.mem_stmts.mp (Body.mem_stmts_of_stmtsOf hin)
  obtain rfl := h.wf.block_unique hin hother
  obtain ⟨visit, hvisit, rfl⟩ := h.exists_visit hlt
  have hpassed : body.stmtsOf visit.block = (before ++ [first] ++ between) ++ second :: rest := by
    rw [hsited.stmtsOf_eq, hsplit, List.append_cons, ← List.append_assoc]
  have hnodup := (hsited.wellFormed h.wf).stmtsOf_nodup visit.block
  rw [hpassed] at hnodup
  have hbefore : ∀ stmt ∈ before, stmt ∈ body.stmts :=
    fun stmt hstmt => hmem stmt (List.mem_append_left _ hstmt)
  obtain ⟨walk, hwalk, htracked⟩ :=
    (Tracked.start (h.found.visited visit hvisit).flowing).steps hsited h.wf hbefore
  obtain ⟨next, hnext, hmove, -, htracked'⟩ := htracked.step hsited h.wf hfirstMem hfirst
  rw [List.nil_append] at htracked'
  have hsite := isSite_of_computation (hsited.command?_eq first ▸ hfirst) hterm hcomputed
  obtain ⟨temp, htemp⟩ := mem_siteTemps htemps (hsited.stmts_eq ▸ hfirstMem) hsite
  have hremembered := remembered_first hsited hmove hterm hoperands htemp hcomputed hdest
  obtain ⟨last, hlast, htracked'', hremembered'⟩ := remembered_steps hsited h.wf htracked'
    (List.nodup_append.mp hnodup).1 (fun stmt hstmt => hmem stmt (by simp [hstmt])) hoperands
    hspares hremembered
  have hsteps : (before ++ [first] ++ between).foldlM (Walk.step body temps)
      { facts := visit.facts } = .ok last := by
    rw [List.foldlM_append, List.foldlM_append, hwalk]
    simp only [bind, Except.bind, List.foldlM_cons, hnext]
    exact hlast
  have hlow := (hsited.low h.wf hsecondMem hsecond).dest dest' rfl
  obtain ⟨temp, hreuse⟩ := step_reuses hremembered' hcomputed hsecond hterm' fun htemp =>
    htracked''.temp_ne_of_low hsited htemp hlow
  refine ⟨temp, (edit_mem_iff hsited h.wf h.found hvisit hpassed hsecond hsteps htracked'' hreuse
    (saved_edits last second term dest' (some temp)) rfl).mpr ?_⟩
  exact List.mem_append_left _ List.mem_cons_self

end CommonTerms

open CommonTerms in
/-- **NOTHING IS COMPUTED AGAIN INSIDE A BLOCK**: the second of two saves of one
    computation loads it, if the first one does not write an operand and nothing
    in between disturbs one. -/
theorem eliminateCommonTerms_reuses {steps : Nat} {body : Body} (wf : WellFormed body)
    (hno : body.HasNoTemp) (hsolves : Solves steps body) {block : Block}
    {before between rest : List Inst} {first second : Inst} {value value' : Value}
    {dest dest' : Loc} {term : Term}
    (hsplit : body.stmtsOf block = before ++ first :: (between ++ second :: rest))
    (hfirst : body.command? first = some (.save value dest)) (hterm : value.term? = some term)
    (hsecond : body.command? second = some (.save value' dest'))
    (hterm' : value'.term? = some term) (hcomputed : term.isLeaf = false)
    (hdest : dest ∉ term.operands)
    (hspares : ∀ stmt ∈ between, ∀ loc ∈ term.operands, ¬ Disturbs body stmt loc) :
    match eliminateCommonTerms steps body with
    | .ok (_, after) => second ∈ after.stmtsOf block ∧
        ∃ src, after.command? second = some (.save (.load src) dest')
    | .error fault => fault = .reservedKey ∧
        KeyKind.inst.reserved ≤ body.records.size + 4 * body.stmts.length := by
  obtain ⟨graph, temps, sited, solution, hgraph, htemps, hsolve⟩ := hsolves
  have hresult := eliminateCommonTerms_rewritten wf hno hgraph htemps hsolve
  cases heliminated : eliminateCommonTerms steps body with
  | error fault =>
      rw [heliminated] at hresult
      exact hresult
  | ok result =>
      rw [heliminated] at hresult
      obtain ⟨-, sets, edits, visits, copies, h⟩ := hresult
      have hmem : second ∈ body.stmtsOf block := by simp [hsplit]
      obtain ⟨source, hsource⟩ := h.reuses htemps hsplit hfirst hterm hsecond hterm' hcomputed hdest
        hspares
      obtain ⟨load, hload⟩ := h.reused (Body.mem_stmts_of_stmtsOf hmem) hsecond hsource
      refine ⟨?_, ⟨load, sets.root source⟩, hload⟩
      rw [h.stmtsOf]
      exact List.mem_flatMap.mpr ⟨second, hmem, List.mem_cons_self⟩

/-- A body that computes a sum, copies it, overwrites it with the result of a
    call, and computes the sum again with its operands turned around. -/
def repeatedSum : Body where
  name := ⟨0⟩
  records := #[.load ⟨0⟩, .load ⟨1⟩, .binary .add ⟨0⟩ ⟨1⟩, .save ⟨2⟩ ⟨2⟩,
    .load ⟨2⟩, .save ⟨4⟩ ⟨3⟩, .call ⟨6⟩ [] false [], .save ⟨6⟩ ⟨2⟩,
    .load ⟨1⟩, .load ⟨0⟩, .binary .add ⟨8⟩ ⟨9⟩, .save ⟨10⟩ ⟨4⟩, .ret none]
  locations := #[.localVar ⟨1⟩, .localVar ⟨2⟩, .localVar ⟨3⟩, .localVar ⟨4⟩, .global ⟨5⟩]
  labels := #[]
  blocks := #[⟨none, [⟨3⟩, ⟨5⟩, ⟨7⟩, ⟨11⟩, ⟨12⟩]⟩]

open CommonTerms in
/-- In the example the second sum is loaded from the temporary of the first one. -/
theorem repeatedSum_reuses : ∃ steps, Solves steps repeatedSum ∧
    match eliminateCommonTerms steps repeatedSum with
    | .ok (_, after) => ⟨11⟩ ∈ after.stmtsOf ⟨0⟩ ∧
        ∃ src, after.command? ⟨11⟩ = some (.save (.load src) ⟨4⟩)
    | .error fault => fault = .reservedKey ∧
        KeyKind.inst.reserved ≤ repeatedSum.records.size + 4 * repeatedSum.stmts.length := by
  have wf : WellFormed repeatedSum := by decide +kernel
  have hno : repeatedSum.HasNoTemp := fun i hi =>
    absurd (Array.mem_of_getElem? hi) (by simp [repeatedSum])
  obtain ⟨steps, hsolves⟩ :=
    solves_of_allReached wf (Body.allReached_of_reachesAll (by decide +kernel))
  have hdests : ∀ stmt ∈ [(⟨5⟩ : Inst), ⟨7⟩], ∀ loc ∈ (Term.binary .add ⟨0⟩ ⟨1⟩).operands,
      (repeatedSum.command? stmt).bind Command.dest? ≠ some loc := by decide +kernel
  have hlocals : ∀ loc ∈ (Term.binary .add ⟨0⟩ ⟨1⟩).operands,
      repeatedSum.isGlobal loc ≠ .ok true := by decide +kernel
  have hspares : ∀ stmt ∈ [(⟨5⟩ : Inst), ⟨7⟩], ∀ loc ∈ (Term.binary .add ⟨0⟩ ⟨1⟩).operands,
      ¬ Disturbs repeatedSum stmt loc := by
    rintro stmt hstmt loc hloc (⟨value, hsave⟩ | ⟨-, hglobal⟩)
    · exact hdests stmt hstmt loc hloc (by rw [hsave]; rfl)
    · exact hlocals loc hloc hglobal
  have hsplit : repeatedSum.stmtsOf ⟨0⟩ = [] ++ ⟨3⟩ :: ([⟨5⟩, ⟨7⟩] ++ ⟨11⟩ :: [⟨12⟩]) := rfl
  exact ⟨steps, hsolves, eliminateCommonTerms_reuses wf hno hsolves hsplit rfl rfl rfl rfl rfl
    (by decide) hspares⟩

-- the copy of the first sum is left, and only the second sum is replaced
example : (eliminateCommonTerms 10 repeatedSum).toOption.map Prod.fst = some 1 := by
  decide +kernel

end DecafBackend
