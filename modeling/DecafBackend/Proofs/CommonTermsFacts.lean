import DecafBackend.Optimize.CommonTerms
import DecafBackend.Proofs.Available
import DecafBackend.Proofs.Solver
import DecafBackend.Proofs.ValueNumbers

/-! # The facts that common subexpressions are found by

    What does not depend on a run: where the temporaries of saves come from,
    which terms they hold, and that a walk over a block gives a result.  A
    temporary is exposed when nothing behind its save in the block makes its
    term stale; facts leave a block about exposed temporaries only.

    * `Sited`, `siteTemps_ok` — the temporaries of the saves
    * `Spares`, `Fresh`, `Exposed` — what a statement leaves of a term
    * `Flowing`, `Tracked` — the invariants of facts and walks
    * `Stepped`, `step_ok` — what a walk does at a statement
    * `walkBlock_ok`, `flowing_solution` — whole blocks, and the solution -/

namespace DecafBackend.CommonTerms

open Available (Indexed)

/-! ## Terms and sites -/

section

variable {body : Body}

/-- The term of a value is found where its records are. -/
theorem termOf_eq {value : Value} (h : body.IsValue value) :
    termOf body value.inst = .ok value.term? := by
  cases value with
  | load src => simp only [termOf, Value.inst, Body.record_eq h, bind, Except.bind]; rfl
  | param inst index => simp only [termOf, Value.inst, Body.record_eq h, bind, Except.bind]; rfl
  | call inst target args isExternal saved =>
      simp only [termOf, Value.inst, Body.record_eq h, bind, Except.bind]; rfl
  | unary inst op operand =>
      simp only [termOf, Value.inst, Body.record_eq h.1, Body.record_eq h.2, bind, Except.bind]
      rfl
  | binary inst op lhs rhs =>
      simp only [termOf, Value.inst, Body.record_eq h.1, Body.record_eq h.2.1,
        Body.record_eq h.2.2, bind, Except.bind]
      rfl

/-- Only saves of terms get temporaries. -/
theorem isSite_ok {stmt : Inst} {command : Command} (h : body.command? stmt = some command)
    (hvalid : command.Valid body stmt) :
    ∃ site, isSite body stmt = .ok site ∧ (site = true →
      ∃ value dest term, command = .save value dest ∧ value.term? = some term) := by
  have hcommand := Body.command?_eq_some.mp h
  have hnone : ∀ {P : Prop}, false = true → P := fun h => absurd h Bool.false_ne_true
  cases command with
  | save value dest =>
      rw [isSite, Body.record_eq hcommand.1]
      cases value with
      | load src =>
          have hsrc : src.loc.index < body.locations.size :=
            hvalid.reads src List.mem_cons_self
          simp only [Value.inst, Body.record_eq hcommand.2, bind, Except.bind]
          -- a copy of a location to itself is no site, nor is one of what is no variable
          by_cases hsame : src.loc = dest
          · rw [if_pos hsame]
            exact ⟨false, rfl, hnone⟩
          · rw [if_neg hsame, Body.isVariable_eq (Array.getElem?_eq_getElem hsrc)]
            exact ⟨_, rfl, fun _ => ⟨_, _, _, rfl, rfl⟩⟩
      | param inst index =>
          simp only [Value.inst, Body.record_eq hcommand.2, bind, Except.bind]
          exact ⟨false, rfl, hnone⟩
      | call inst target args isExternal saved =>
          simp only [Value.inst, Body.record_eq hcommand.2, bind, Except.bind]
          exact ⟨false, rfl, hnone⟩
      | unary inst op operand =>
          simp only [Value.inst, Body.record_eq hcommand.2.1, bind, Except.bind]
          exact ⟨true, rfl, fun _ => ⟨_, _, _, rfl, rfl⟩⟩
      | binary inst op lhs rhs =>
          simp only [Value.inst, Body.record_eq hcommand.2.1, bind, Except.bind]
          exact ⟨true, rfl, fun _ => ⟨_, _, _, rfl, rfl⟩⟩
  | branch cond target =>
      rw [isSite, Body.record_eq hcommand.1]
      exact ⟨false, rfl, hnone⟩
  | ret value =>
      cases value with
      | none => rw [isSite, Body.record_eq hcommand]; exact ⟨false, rfl, hnone⟩
      | some value => rw [isSite, Body.record_eq hcommand.1]; exact ⟨false, rfl, hnone⟩
  | call target args isExternal saved =>
      rw [isSite, Body.record_eq hcommand]; exact ⟨false, rfl, hnone⟩
  | use loc => rw [isSite, Body.record_eq hcommand]; exact ⟨false, rfl, hnone⟩
  | label place => rw [isSite, Body.record_eq hcommand]; exact ⟨false, rfl, hnone⟩
  | jump target => rw [isSite, Body.record_eq hcommand]; exact ⟨false, rfl, hnone⟩
  | exit code => rw [isSite, Body.record_eq hcommand]; exact ⟨false, rfl, hnone⟩

end

/-- A body that has a temporary of its own for some saves of terms, and is
    another body otherwise. -/
structure Sited (original body : Body) (temps : Std.ExtTreeMap Inst Loc) : Prop where
  same : body = { original with locations := body.locations }
  grows : original.locations.size ≤ body.locations.size
  old : ∀ {i : Nat}, i < original.locations.size →
    body.locations[i]? = original.locations[i]?
  new : ∀ {i : Nat}, original.locations.size ≤ i → i < body.locations.size →
    body.locations[i]? = some .temp
  temp : ∀ {site : Inst} {temp : Loc}, temps[site]? = some temp →
    original.locations.size ≤ temp.index ∧ temp.index < body.locations.size
  site : ∀ {site : Inst} {temp : Loc}, temps[site]? = some temp →
    ∃ value dest term, original.command? site = some (.save value dest) ∧
      value.term? = some term
  injective : ∀ {a b : Inst} {temp : Loc}, temps[a]? = some temp → temps[b]? = some temp → a = b

/-- Without temporaries a body has its own locations. -/
theorem Sited.start (original : Body) : Sited original original ∅ where
  same := rfl
  grows := Nat.le_refl _
  old _ := rfl
  new h h' := absurd h' (Nat.not_lt.mpr h)
  temp h := by cases h
  site h := by cases h
  injective h := by cases h

/-- A temporary more, for a save of a term. -/
theorem Sited.add {original body : Body} {temps : Std.ExtTreeMap Inst Loc} {site : Inst}
    (h : Sited original body temps)
    (hsite : ∃ value dest term, original.command? site = some (.save value dest) ∧
      value.term? = some term) :
    Sited original { body with locations := body.locations.push .temp }
      (temps.insert site ⟨body.locations.size⟩) := by
  -- the new key is behind all locations, so no other site has it
  have hlook : ∀ {other : Inst} {temp : Loc},
      (temps.insert site ⟨body.locations.size⟩)[other]? = some temp →
      (other = site ∧ temp = ⟨body.locations.size⟩) ∨ temps[other]? = some temp := by
    intro other temp hother
    rw [Maps.getElem?_insert] at hother
    split at hother
    · next heq =>
        cases hother
        exact Or.inl ⟨heq.symm, rfl⟩
    · exact Or.inr hother
  have hsize : (body.locations.push .temp).size = body.locations.size + 1 := Array.size_push _
  have hgrows := h.grows
  refine ⟨?_, ?_, ?_, ?_, ?_, ?_, ?_⟩
  · exact congrArg (fun b : Body => { b with locations := body.locations.push .temp }) h.same
  · dsimp only
    omega
  · intro i hi
    dsimp only
    rw [Array.getElem?_push, if_neg (by omega)]
    exact h.old hi
  · intro i hi hlt
    dsimp only at hlt ⊢
    rw [Array.getElem?_push]
    split
    · rfl
    · exact h.new hi (by omega)
  · intro other temp hother
    dsimp only
    rcases hlook hother with ⟨-, rfl⟩ | hold
    · exact ⟨hgrows, by dsimp only; omega⟩
    · have := h.temp hold
      exact ⟨this.1, by omega⟩
  · intro other temp hother
    rcases hlook hother with ⟨rfl, -⟩ | hold
    · exact hsite
    · exact h.site hold
  · intro a b temp ha hb
    rcases hlook ha with ⟨rfl, rfl⟩ | hold
    · rcases hlook hb with ⟨rfl, -⟩ | hold'
      · rfl
      · exact absurd (h.temp hold').2 (Nat.lt_irrefl _)
    · rcases hlook hb with ⟨rfl, rfl⟩ | hold'
      · exact absurd (h.temp hold).2 (Nat.lt_irrefl _)
      · exact h.injective hold hold'

section

variable {original body : Body} {temps : Std.ExtTreeMap Inst Loc} (h : Sited original body temps)
include h

/-- The records are those of the original body. -/
theorem Sited.records : body.records = original.records := by
  have hrecords := congrArg Body.records h.same
  exact hrecords

/-- The blocks are those of the original body. -/
theorem Sited.blocks : body.blocks = original.blocks := by
  have hblocks := congrArg Body.blocks h.same
  exact hblocks

/-- The labels are those of the original body. -/
theorem Sited.labels : body.labels = original.labels := by
  have hlabels := congrArg Body.labels h.same
  exact hlabels

/-- The commands are those of the original body. -/
theorem Sited.command?_eq (stmt : Inst) : body.command? stmt = original.command? stmt :=
  Body.command?_congr h.records

/-- The statements of a block are those of the original body. -/
theorem Sited.stmtsOf_eq (block : Block) : body.stmtsOf block = original.stmtsOf block :=
  Body.stmtsOf_congr h.blocks block

/-- The statements are those of the original body. -/
theorem Sited.stmts_eq : body.stmts = original.stmts := by
  rw [Body.stmts, Body.stmts, h.blocks]

/-- Valid commands stay valid beside temporaries. -/
theorem Sited.valid {stmt : Inst} {command : Command} (hvalid : command.Valid original stmt) :
    command.Valid body stmt where
  reads access haccess := Nat.lt_of_lt_of_le (hvalid.reads access haccess) h.grows
  dest loc hloc := by
    obtain ⟨location, hlocation, hwritable⟩ := hvalid.dest loc hloc
    exact ⟨location, (h.old (Array.getElem?_eq_some_iff.mp hlocation).1).trans hlocation, hwritable⟩
  target label hlabel := by
    rw [h.labels, h.blocks]
    exact hvalid.target label hlabel

/-- Temporaries leave a body well-formed. -/
theorem Sited.wellFormed (wf : WellFormed original) : WellFormed body where
  commands stmt hstmt := by
    rw [h.stmts_eq] at hstmt
    obtain ⟨command, hcommand, hvalid⟩ := wf.commands stmt hstmt
    exact ⟨command, (h.command?_eq stmt).trans hcommand, h.valid hvalid⟩
  distinct := h.stmts_eq ▸ wf.distinct
  owned := by
    simp only [h.stmts_eq, Body.family, h.command?_eq]
    exact wf.owned
  enders hstmts hcommand := by
    rw [h.stmtsOf_eq] at hstmts
    rw [h.command?_eq] at hcommand
    exact wf.enders hstmts hcommand
  ending := by
    obtain ⟨stmt, command, hlast, hcommand, hterminator⟩ := wf.ending
    refine ⟨stmt, command, ?_, (h.command?_eq stmt).trans hcommand, hterminator⟩
    rw [← hlast, Body.lastStmt?, Body.lastStmt?, h.blocks]
  interned {i j location} hi hj hinterned := by
    have hold : ∀ {i : Nat}, body.locations[i]? = some location →
        original.locations[i]? = some location := by
      intro i hi
      by_cases hlt : i < original.locations.size
      · rw [← h.old hlt, hi]
      · -- a new location is a temporary, and those are not shared
        have hnew := h.new (Nat.not_lt.mp hlt) (Array.getElem?_eq_some_iff.mp hi).1
        rw [hi] at hnew
        cases hnew
        cases hinterned
    exact wf.interned (hold hi) (hold hj) hinterned

end

/-- Every site gets a temporary of its own. -/
theorem siteTemps_ok {original : Body} (wf : WellFormed original) :
    ∃ temps body, siteTemps original = .ok (temps, body) ∧ Sited original body temps := by
  -- whether a statement is a site can always be told
  obtain ⟨test, htest, hsites⟩ : ∃ test : Inst → Bool,
      (∀ stmt ∈ original.stmts, isSite original stmt = .ok (test stmt)) ∧
        original.stmts.filterM (isSite original) = .ok (original.stmts.filter test) := by
    refine Checked.filterM_ok fun stmt hstmt => ?_
    obtain ⟨command, hcommand, hvalid⟩ := wf.commands stmt hstmt
    obtain ⟨site, hsite, -⟩ := isSite_ok hcommand hvalid
    exact ⟨site, hsite⟩
  have hterm : ∀ site ∈ original.stmts.filter test, ∃ value dest term,
      original.command? site = some (.save value dest) ∧ value.term? = some term := by
    intro site hsite
    obtain ⟨hmem, htrue⟩ := List.mem_filter.mp hsite
    obtain ⟨command, hcommand, hvalid⟩ := wf.commands site hmem
    obtain ⟨found, hfound, hshape⟩ := isSite_ok hcommand hvalid
    rw [htest site hmem] at hfound
    cases hfound
    obtain ⟨value, dest, term, rfl, hterm⟩ := hshape htrue
    exact ⟨value, dest, term, hcommand, hterm⟩
  -- the traversal adds one temporary at a time
  have hresult : ∀ {add : Std.ExtTreeMap Inst Loc × Body → Inst → Std.ExtTreeMap Inst Loc × Body},
      (∀ state site, add state site = (state.1.insert site ⟨state.2.locations.size⟩,
        { state.2 with locations := state.2.locations.push .temp })) →
      ∀ sites : List Inst, (∀ site ∈ sites, site ∈ original.stmts.filter test) →
        ∀ state : Std.ExtTreeMap Inst Loc × Body, Sited original state.2 state.1 →
          Sited original (sites.foldl add state).2 (sites.foldl add state).1 := by
    intro add hadd sites
    induction sites with
    | nil =>
        intro _ state h
        exact h
    | cons site sites ih =>
        intro hall state h
        refine ih (fun other hother => hall other (List.mem_cons_of_mem _ hother)) _ ?_
        rw [hadd]
        exact h.add (hterm site (hall site List.mem_cons_self))
  refine ⟨_, _, ?_, hresult (fun _ _ => rfl) _ (fun _ h => h) (∅, original) (Sited.start original)⟩
  rw [siteTemps, hsites]
  rfl

/-! ## Statements on the way through a block -/

section

variable {body : Body} {temps : Std.ExtTreeMap Inst Loc}

/-- What a save of a term leads to, given where it loads the term from. -/
def saved (temps : Std.ExtTreeMap Inst Loc) (walk : Walk) (save : Inst) (term : Term) (dest : Loc)
    (source : Option Loc) : Walk :=
  let (number, table) := walk.table.ofTerm term
  let walk : Walk :=
    { facts := walk.facts.kill dest
      table := table.define dest number
      edits := walk.edits ++ (source.map (Edit.reuse save)).toList }
  if term.mentions dest then walk else walk.recordTerm temps save term number dest

/-- What the call of a statement does to a walk, if there is one. -/
inductive Called (body : Body) (stmt : Inst) (command : Command) (walk : Walk) : Walk → Prop
  /-- Nothing is called. -/
  | silent (h : command.callInst? stmt = none) : Called body stmt command walk walk
  /-- Nothing is known about fields after a call. -/
  | outward {facts : Available} {table : NumberTable} (h : (command.callInst? stmt).isSome = true)
      (indexed : facts.Indexed body.locations.size) (facts_eq : walk.facts.Spared body facts)
      (bounded : table.Bounded body) (table_eq : walk.table.Spared body table) :
      Called body stmt command walk { walk with facts, table }

/-- What a statement does to a walk. -/
inductive Move (body : Body) (temps : Std.ExtTreeMap Inst Loc) (stmt : Inst) (command : Command)
    (walk : Walk) : Walk → Prop
  /-- The statement writes nothing. -/
  | idle {called : Walk} (hdest : command.dest? = none)
      (hcalled : Called body stmt command walk called) : Move body temps stmt command walk called
  /-- The statement writes what is no term. -/
  | overwrite {called : Walk} {value : Value} {dest : Loc} (hsave : command = .save value dest)
      (hterm : value.term? = none) (hcalled : Called body stmt command walk called) :
      Move body temps stmt command walk (called.overwrite dest)
  /-- The statement writes a term. -/
  | term {value : Value} {dest : Loc} {term : Term} {source : Option Loc}
      (hsave : command = .save value dest) (hterm : value.term? = some term)
      (hsource : ∀ holder, source = some holder → holder ≠ dest ∧
        (holder ∈ walk.facts.holdersOf term ∨
          (walk.table.ofTerm term).2.temps[(walk.table.ofTerm term).1]? = some holder)) :
      Move body temps stmt command walk (saved temps walk stmt term dest source)

/-- A save of a term calls nothing. -/
theorem callInst?_of_term {value : Value} {dest : Loc} {term : Term} {stmt : Inst}
    (h : value.term? = some term) : (Command.save value dest).callInst? stmt = none := by
  cases value with
  | load | unary | binary => rfl
  | param | call => cases h

/-- A location to reuse is looked for among the holders, and never is the destination. -/
theorem reuseSource_ok {walk : Walk} {term : Term} {dest : Loc} {number : ValueNumber}
    (hfacts : walk.facts.Indexed body.locations.size) (htable : walk.table.Bounded body)
    (hterm : ∀ loc ∈ term.operands, loc.index < body.locations.size) :
    ∃ source, reuseSource body walk term number dest = .ok source ∧
      ∀ holder, source = some holder → holder ≠ dest ∧
        (holder ∈ walk.facts.holdersOf term ∨ walk.table.temps[number]? = some holder) := by
  -- candidates are the temporary that is numbered so, and then the holders
  have hcandidates : ∀ holder ∈
      (if term.isLeaf then [] else walk.table.temps[number]?.toList) ++ walk.facts.holdersOf term,
      (holder ∈ walk.facts.holdersOf term ∨ walk.table.temps[number]? = some holder) ∧
        holder.index < body.locations.size := by
    intro holder hholder
    rcases List.mem_append.mp hholder with hholder | hholder
    · split at hholder
      · cases hholder
      · have htemp := Option.mem_toList.mp hholder
        exact ⟨Or.inr htemp, (Array.getElem?_eq_some_iff.mp (htable.temps htemp)).1⟩
    · exact ⟨Or.inl hholder, hfacts.holder_lt (Available.mem_holdersOf.mp hholder)⟩
  have htest : ∀ holder ∈
      (if term.isLeaf then [] else walk.table.temps[number]?.toList) ++ walk.facts.holdersOf term,
      ∃ b, (if holder = dest then return false else worthReusing body term holder) =
        Except.ok b := by
    intro holder hholder
    by_cases hsame : holder = dest
    · exact ⟨false, by rw [if_pos hsame]; rfl⟩
    · rw [if_neg hsame]
      cases term with
      -- a plain location is reused by a variable only, and not by a field
      | leaf src =>
          have hsrc := Array.getElem?_eq_getElem (hterm src List.mem_cons_self)
          have hplace := Array.getElem?_eq_getElem (hcandidates holder hholder).2
          simp only [worthReusing, Body.isVariable_eq hsrc, Body.isGlobal_eq hplace, bind,
            Except.bind]
          split
          · exact ⟨_, rfl⟩
          · exact ⟨_, rfl⟩
      | unary op operand => exact ⟨_, rfl⟩
      | binary op lhs rhs => exact ⟨_, rfl⟩
  obtain ⟨source, hsource, hfound⟩ := Checked.findM?_ok htest
  refine ⟨source, hsource, fun holder hholder => ?_⟩
  obtain ⟨hmem, hgood⟩ := hfound holder hholder
  refine ⟨?_, (hcandidates holder hmem).1⟩
  rintro rfl
  rw [if_pos rfl] at hgood
  cases hgood

/-- A save of a term is walked over, whether a location can be reused or not. -/
theorem saveTerm_ok {walk : Walk} {stmt : Inst} {term : Term} {dest : Loc}
    (hfacts : walk.facts.Indexed body.locations.size) (htable : walk.table.Bounded body)
    (hterm : ∀ loc ∈ term.operands, loc.index < body.locations.size) :
    ∃ source, Walk.saveTerm body temps walk stmt term dest =
        .ok (saved temps walk stmt term dest source) ∧
      ∀ holder, source = some holder → holder ≠ dest ∧
        (holder ∈ walk.facts.holdersOf term ∨
          (walk.table.ofTerm term).2.temps[(walk.table.ofTerm term).1]? = some holder) := by
  let numbered : Walk := { walk with table := (walk.table.ofTerm term).2 }
  have hnumbered : numbered.table.Bounded body := htable.ofTerm hterm
  obtain ⟨source, hsource, hfound⟩ : ∃ source,
      reuseSource body numbered term (walk.table.ofTerm term).1 dest = .ok source ∧
      ∀ holder, source = some holder → holder ≠ dest ∧
        (holder ∈ walk.facts.holdersOf term ∨
          (walk.table.ofTerm term).2.temps[(walk.table.ofTerm term).1]? = some holder) :=
    reuseSource_ok hfacts hnumbered hterm
  refine ⟨source, ?_, hfound⟩
  show (reuseSource body numbered term (walk.table.ofTerm term).1 dest >>= _) = _
  rw [hsource]
  simp only [bind, Except.bind, saved]
  split
  · rfl
  · rfl

/-- The part of a step behind a call. -/
def write (body : Body) (temps : Std.ExtTreeMap Inst Loc) (walk : Walk) (stmt : Inst) :
    Checked Walk := do
  match ← body.record stmt with
  | .save value dest =>
    match ← termOf body value with
    | none => return walk.overwrite dest
    | some term => walk.saveTerm body temps stmt term dest
  | _ => return walk

/-- A write is walked over, and moves the walk in one of three ways. -/
theorem write_ok {walk called : Walk} {stmt : Inst} {command : Command}
    (hcommand : body.command? stmt = some command) (hvalid : command.Valid body stmt)
    (hcalled : Called body stmt command walk called)
    (hfacts : walk.facts.Indexed body.locations.size) (htable : walk.table.Bounded body) :
    ∃ next, write body temps called stmt = .ok next ∧ Move body temps stmt command walk next := by
  obtain ⟨record, hrecord, hdest, -⟩ := Body.record_command hcommand
  have hparts := Body.command?_eq_some.mp hcommand
  cases hwritten : command.dest? with
  | none =>
      refine ⟨called, ?_, .idle hwritten hcalled⟩
      rw [hwritten] at hdest
      rw [write, Body.record_eq hrecord]
      cases record with
      | save value dest => cases hdest
      | _ => rfl
  | some dest =>
      obtain ⟨value, rfl⟩ := Command.eq_save hwritten
      have hwrite : write body temps called stmt =
          match value.term? with
          | none => .ok (called.overwrite dest)
          | some term => called.saveTerm body temps stmt term dest := by
        simp only [write, Body.record_eq hparts.1, termOf_eq hparts.2, bind, Except.bind]
        cases value.term? with
        | none => rfl
        | some term => rfl
      rw [hwrite]
      cases hterm : value.term? with
      | none => exact ⟨_, rfl, .overwrite rfl hterm hcalled⟩
      | some term =>
          -- what a term computes is no call, so the walk is still the one before
          cases hcalled with
          | outward hcall => rw [callInst?_of_term hterm] at hcall; cases hcall
          | silent hcall =>
              have hoperands : ∀ loc ∈ term.operands, loc.index < body.locations.size := by
                intro loc hloc
                obtain ⟨access, haccess, rfl⟩ := Value.mem_operands_term hterm hloc
                exact hvalid.reads access haccess
              obtain ⟨source, hsaved, hsource⟩ := saveTerm_ok hfacts htable hoperands
              exact ⟨_, hsaved, .term rfl hterm hsource⟩

/-- **ONE STATEMENT OF A WALK**: every statement can be moved over. -/
theorem step_ok {walk : Walk} {stmt : Inst} {command : Command}
    (hcommand : body.command? stmt = some command) (hvalid : command.Valid body stmt)
    (hfacts : walk.facts.Indexed body.locations.size) (htable : walk.table.Bounded body) :
    ∃ next, Walk.step body temps walk stmt = .ok next ∧
      Move body temps stmt command walk next := by
  rw [Walk.step, Body.hasCall_eq hcommand]
  cases hcall : command.callInst? stmt with
  | none =>
      simp only [bind, Except.bind, pure, Except.pure, Option.isSome_none, Bool.false_eq_true,
        if_false]
      exact write_ok hcommand hvalid (.silent hcall) hfacts htable
  | some call =>
      obtain ⟨facts, hkill, hindexed, hspared⟩ := Available.killGlobals_ok hfacts
      obtain ⟨table, hforget, hbounded, hsame⟩ := NumberTable.forgetGlobals_ok htable
      have hcalled : Called body stmt command walk { walk with facts, table } :=
        .outward (by rw [hcall]; rfl) hindexed hspared hbounded hsame
      simp only [bind, Except.bind, pure, Except.pure, Option.isSome_some, if_true, hkill, hforget]
      exact write_ok hcommand hvalid hcalled hfacts htable

end

/-! ## What a statement leaves -/

/-- A statement that changes no operand of a term. -/
structure Spares (body : Body) (stmt : Inst) (command : Command) (term : Term) : Prop where
  dest : ∀ dest, command.dest? = some dest → dest ∉ term.operands
  call : (command.callInst? stmt).isSome = true →
    ∀ loc ∈ term.operands, body.isGlobal loc = .ok false

/-- What a statement leaves of the facts, and what it adds. -/
structure Stepped (body : Body) (temps : Std.ExtTreeMap Inst Loc) (stmt : Inst)
    (command : Command) (facts left : Available) : Prop where
  indexed : left.Indexed body.locations.size
  has : ∀ {term : Term}, left.Has term → Spares body stmt command term ∧
    (facts.Has term ∨ ∃ value dest, command = .save value dest ∧ value.term? = some term)
  holds : ∀ {term : Term} {loc : Loc}, left.Holds term loc →
    (facts.Holds term loc ∧ command.dest? ≠ some loc ∧
      ((command.callInst? stmt).isSome = true → body.isGlobal loc = .ok false)) ∨
    ∃ value dest, command = .save value dest ∧ value.term? = some term ∧
      (loc = dest ∨ temps[stmt]? = some loc)

section

variable {original body : Body} {temps : Std.ExtTreeMap Inst Loc}

/-- A call keeps the facts that have nothing to do with fields. -/
theorem Called.facts {stmt : Inst} {command : Command} {walk called : Walk}
    (h : Called body stmt command walk called)
    (hfacts : walk.facts.Indexed body.locations.size) :
    called.facts.Indexed body.locations.size ∧
      (∀ {term}, called.facts.Has term → walk.facts.Has term ∧
        ((command.callInst? stmt).isSome = true →
          ∀ loc ∈ term.operands, body.isGlobal loc = .ok false)) ∧
      ∀ {term loc}, called.facts.Holds term loc → walk.facts.Holds term loc ∧
        ((command.callInst? stmt).isSome = true → body.isGlobal loc = .ok false) := by
  cases h with
  | silent h =>
      refine ⟨hfacts, fun hhas => ⟨hhas, ?_⟩, fun hholds => ⟨hholds, ?_⟩⟩
      · rw [h]; exact nofun
      · rw [h]; exact nofun
  | outward h hindexed hspared =>
      exact ⟨hindexed, fun hhas => ⟨(hspared.has hhas).1, fun _ => (hspared.has hhas).2⟩,
        fun hholds => ⟨(hspared.holds hholds).1, fun _ => (hspared.holds hholds).2⟩⟩

/-- The facts behind a save of a term. -/
theorem saved_facts (walk : Walk) (stmt : Inst) (term : Term) (dest : Loc)
    (source : Option Loc) : (saved temps walk stmt term dest source).facts =
      if term.mentions dest then walk.facts.kill dest
      else
        match temps[stmt]? with
        | none => (walk.facts.kill dest).register term dest
        | some temp =>
          (((walk.facts.kill dest).register term dest).kill temp).register term temp := by
  simp only [saved, Walk.recordTerm]
  split
  · rfl
  · split <;> simp_all

/-- A term mentions its operands. -/
theorem mentions_iff {term : Term} {loc : Loc} : term.mentions loc = true ↔ loc ∈ term.operands :=
  List.contains_iff_mem

/-- Without a call, a term is spared where no operand is written. -/
theorem Spares.of_none {stmt : Inst} {command : Command} {term : Term}
    (hcall : command.callInst? stmt = none)
    (hdest : ∀ dest, command.dest? = some dest → dest ∉ term.operands) :
    Spares body stmt command term where
  dest := hdest
  call h := by
    rw [hcall] at h
    cases h

/-- A statement that writes nothing leaves what a call leaves. -/
theorem Stepped.of_called {stmt : Inst} {command : Command} {walk called : Walk}
    (hdest : command.dest? = none) (hcalled : Called body stmt command walk called)
    (hfacts : walk.facts.Indexed body.locations.size) :
    Stepped body temps stmt command walk.facts called.facts := by
  obtain ⟨hindexed, hhas, hholds⟩ := hcalled.facts hfacts
  refine ⟨hindexed, fun hterm => ⟨⟨?_, (hhas hterm).2⟩, Or.inl (hhas hterm).1⟩,
    fun hloc => Or.inl ⟨(hholds hloc).1, ?_, (hholds hloc).2⟩⟩
  · rw [hdest]
    exact nofun
  · rw [hdest]
    exact nofun

/-- A statement that writes a location leaves nothing of it. -/
theorem Stepped.kill {stmt : Inst} {command : Command} {walk called : Walk} {dest : Loc}
    (hdest : command.dest? = some dest) (hcalled : Called body stmt command walk called)
    (hfacts : walk.facts.Indexed body.locations.size) :
    Stepped body temps stmt command walk.facts (called.facts.kill dest) := by
  obtain ⟨hindexed, hhas, hholds⟩ := hcalled.facts hfacts
  refine ⟨hindexed.kill dest, ?_, ?_⟩
  · intro term hkept
    obtain ⟨hkept, hnot⟩ := Available.has_kill hindexed hkept
    refine ⟨⟨?_, (hhas hkept).2⟩, Or.inl (hhas hkept).1⟩
    intro other hother
    cases hdest.symm.trans hother
    exact hnot
  · intro term loc hkept
    obtain ⟨hkept, hne⟩ := Available.holds_kill hindexed hkept
    refine Or.inl ⟨(hholds hkept).1, ?_, (hholds hkept).2⟩
    rw [hdest]
    exact fun heq => hne (Option.some.inj heq).symm

/-- What more is forgotten is missed by nothing. -/
theorem Stepped.forget {stmt : Inst} {command : Command} {facts left : Available}
    (h : Stepped body temps stmt command facts left) (loc : Loc) :
    Stepped body temps stmt command facts (left.kill loc) where
  indexed := h.indexed.kill loc
  has hterm := h.has (Available.has_kill h.indexed hterm).1
  holds hloc := h.holds (Available.holds_kill h.indexed hloc).1

/-- A term that a save computes is added, with a location that has its value then. -/
theorem Stepped.register {stmt : Inst} {value : Value} {dest holder : Loc} {term : Term}
    {facts left : Available} (h : Stepped body temps stmt (.save value dest) facts left)
    (hterm : value.term? = some term) (hnot : dest ∉ term.operands)
    (hoperands : ∀ loc ∈ term.operands, loc.index < body.locations.size)
    (hholder : holder.index < body.locations.size)
    (hplace : holder = dest ∨ temps[stmt]? = some holder) :
    Stepped body temps stmt (.save value dest) facts (left.register term holder) := by
  refine ⟨h.indexed.register hoperands hholder, ?_, ?_⟩
  · intro other hhas
    rcases Available.has_register hhas with rfl | hold
    · refine ⟨.of_none (callInst?_of_term hterm) fun _ heq => ?_, Or.inr ⟨_, _, rfl, hterm⟩⟩
      cases heq
      exact hnot
    · exact h.has hold
  · intro other loc hholds
    rcases Available.holds_register h.indexed hholds with ⟨rfl, rfl⟩ | ⟨hold, -⟩
    · exact Or.inr ⟨_, _, rfl, hterm, hplace⟩
    · exact h.holds hold

/-- A move changes the facts as its statement does. -/
theorem Move.stepped {stmt : Inst} {command : Command} {walk next : Walk}
    (h : Move body temps stmt command walk next) (hvalid : command.Valid body stmt)
    (htemp : ∀ {temp : Loc}, temps[stmt]? = some temp → temp.index < body.locations.size)
    (hfacts : walk.facts.Indexed body.locations.size) :
    Stepped body temps stmt command walk.facts next.facts := by
  cases h with
  | idle hdest hcalled => exact .of_called hdest hcalled hfacts
  | overwrite hsave _ hcalled => exact .kill (by rw [hsave]; rfl) hcalled hfacts
  | @term value dest term source hsave hterm hsource =>
      subst hsave
      -- the destination is taken from what it held before it becomes a holder again
      have hkill : Stepped body temps stmt (.save value dest) walk.facts (walk.facts.kill dest) :=
        .kill rfl (.silent (callInst?_of_term hterm)) hfacts
      have hdest : dest.index < body.locations.size := by
        obtain ⟨location, hlocation, -⟩ := hvalid.dest dest rfl
        exact (Array.getElem?_eq_some_iff.mp hlocation).1
      have hoperands : ∀ loc ∈ term.operands, loc.index < body.locations.size := by
        intro loc hloc
        obtain ⟨access, haccess, rfl⟩ := Value.mem_operands_term hterm hloc
        exact hvalid.reads access haccess
      rw [saved_facts]
      by_cases hmentions : term.mentions dest = true
      · rw [if_pos hmentions]
        exact hkill
      · rw [if_neg hmentions]
        have hnot : dest ∉ term.operands := fun hmem => hmentions (mentions_iff.mpr hmem)
        have hadded := hkill.register hterm hnot hoperands hdest (Or.inl rfl)
        cases htemps : temps[stmt]? with
        | none => exact hadded
        | some temp =>
            exact (hadded.forget temp).register hterm hnot hoperands (htemp htemps) (Or.inr htemps)

end

/-! ## Facts on the way -/

/-- A temporary whose save is among some statements, and has not become stale
    since. -/
def Fresh (body : Body) (temps : Std.ExtTreeMap Inst Loc) (passed : List Inst) (temp : Loc)
    (term : Term) : Prop :=
  ∃ front site back, passed = front ++ site :: back ∧ temps[site]? = some temp ∧
    ∀ stmt ∈ back, ∀ command, body.command? stmt = some command → Spares body stmt command term

/-- A temporary that is not stale at the end of its block. -/
def Exposed (body : Body) (temps : Std.ExtTreeMap Inst Loc) (temp : Loc) (term : Term) : Prop :=
  ∃ block, Fresh body temps (body.stmtsOf block) temp term

/-- The term that a temporary is for. -/
def KeyOf (body : Body) (temps : Std.ExtTreeMap Inst Loc) (temp : Loc) (term : Term) : Prop :=
  ∃ site value dest, temps[site]? = some temp ∧ body.command? site = some (.save value dest) ∧
    value.term? = some term

/-- Facts behind some statements of a block. -/
structure Flowing (original body : Body) (temps : Std.ExtTreeMap Inst Loc) (passed : List Inst)
    (facts : Available) : Prop where
  indexed : facts.Indexed body.locations.size
  operands : ∀ {term : Term}, facts.Has term →
    ∀ loc ∈ term.operands, loc.index < original.locations.size
  key : ∀ {term : Term} {loc : Loc}, facts.Holds term loc →
    original.locations.size ≤ loc.index → KeyOf body temps loc term
  exposed : ∀ {term : Term} {loc : Loc}, facts.Holds term loc →
    original.locations.size ≤ loc.index →
      Exposed body temps loc term ∨ Fresh body temps passed loc term

/-- A walk behind some statements of a block. -/
structure Tracked (original body : Body) (temps : Std.ExtTreeMap Inst Loc) (passed : List Inst)
    (walk : Walk) : Prop where
  facts : Flowing original body temps passed walk.facts
  table : walk.table.Bounded body
  temps : ∀ {number : ValueNumber} {temp : Loc}, walk.table.temps[number]? = some temp →
    ∃ site ∈ passed, temps[site]? = some temp

section

variable {original body : Body} {temps : Std.ExtTreeMap Inst Loc}

/-- A temporary stays fresh over a statement that spares its term. -/
theorem Fresh.snoc {passed : List Inst} {stmt : Inst} {command : Command} {temp : Loc}
    {term : Term} (h : Fresh body temps passed temp term)
    (hcommand : body.command? stmt = some command) (hspares : Spares body stmt command term) :
    Fresh body temps (passed ++ [stmt]) temp term := by
  obtain ⟨front, site, back, rfl, hsite, hback⟩ := h
  refine ⟨front, site, back ++ [stmt], by simp, hsite, ?_⟩
  intro other hother command' hcommand'
  rcases List.mem_append.mp hother with hother | hother
  · exact hback other hother command' hcommand'
  · rw [List.mem_singleton.mp hother, hcommand] at hcommand'
    cases hcommand'
    rw [List.mem_singleton.mp hother]
    exact hspares

/-- A temporary has one term. -/
theorem KeyOf.unique (hsited : Sited original body temps) {temp : Loc} {a b : Term}
    (ha : KeyOf body temps temp a) (hb : KeyOf body temps temp b) : a = b := by
  obtain ⟨site, value, dest, hsite, hcommand, hterm⟩ := ha
  obtain ⟨site', value', dest', hsite', hcommand', hterm'⟩ := hb
  cases hsited.injective hsite hsite'
  rw [hcommand] at hcommand'
  cases hcommand'
  rw [hterm] at hterm'
  exact Option.some.inj hterm'

/-- The empty facts flow. -/
theorem Flowing.empty {passed : List Inst} : Flowing original body temps passed {} where
  indexed := Indexed.empty
  operands h := absurd h Available.not_has_empty
  key h := absurd h.has Available.not_has_empty
  exposed h := absurd h.has Available.not_has_empty

/-- Facts that are among others. -/
theorem Flowing.weaken {passed : List Inst} {facts left : Available}
    (h : Flowing original body temps passed facts) (hindexed : left.Indexed body.locations.size)
    (hhas : ∀ {term}, left.Has term → facts.Has term)
    (hholds : ∀ {term loc}, left.Holds term loc → facts.Holds term loc) :
    Flowing original body temps passed left where
  indexed := hindexed
  operands hterm := h.operands (hhas hterm)
  key hloc := h.key (hholds hloc)
  exposed hloc := h.exposed (hholds hloc)

/-- Only facts about exposed temporaries leave a block. -/
theorem Flowing.leave {block : Block} {facts : Available}
    (h : Flowing original body temps (body.stmtsOf block) facts) :
    Flowing original body temps [] facts where
  indexed := h.indexed
  operands := h.operands
  key := h.key
  exposed hloc hnew := Or.inl ((h.exposed hloc hnew).elim id fun hfresh => ⟨block, hfresh⟩)

/-- On a way without statements no temporary is fresh. -/
theorem not_fresh_nil {temp : Loc} {term : Term} : ¬ Fresh body temps [] temp term := by
  rintro ⟨front, site, back, heq, -⟩
  cases front <;> cases heq

/-- The operands and destinations of statements are older than the
    temporaries. -/
structure Low (original : Body) (stmt : Inst) (command : Command) : Prop where
  reads : ∀ access ∈ command.reads stmt, access.loc.index < original.locations.size
  dest : ∀ dest, command.dest? = some dest → dest.index < original.locations.size

/-- What flows in flows out, with the statement behind it. -/
theorem Flowing.step {passed : List Inst} {stmt : Inst} {command : Command}
    {facts left : Available} (h : Flowing original body temps passed facts)
    (hcommand : body.command? stmt = some command) (hlow : Low original stmt command)
    (hstepped : Stepped body temps stmt command facts left) :
    Flowing original body temps (passed ++ [stmt]) left where
  indexed := hstepped.indexed
  operands {term} hterm loc hloc := by
    rcases (hstepped.has hterm).2 with hold | ⟨value, dest, rfl, hvalue⟩
    · exact h.operands hold loc hloc
    · obtain ⟨access, haccess, rfl⟩ := Value.mem_operands_term hvalue hloc
      exact hlow.reads access haccess
  key {term loc} hloc hnew := by
    rcases hstepped.holds hloc with ⟨hold, -⟩ | ⟨value, dest, rfl, hvalue, hplace⟩
    · exact h.key hold hnew
    -- the new holder is old and so no temporary, or the temporary of this very site
    · rcases hplace with rfl | htemp
      · exact absurd (hlow.dest loc rfl) (Nat.not_lt.mpr hnew)
      · exact ⟨stmt, value, dest, htemp, hcommand, hvalue⟩
  exposed {term loc} hloc hnew := by
    have hspares := (hstepped.has hloc.has).1
    rcases hstepped.holds hloc with ⟨hold, -⟩ | ⟨value, dest, rfl, hvalue, hplace⟩
    · exact (h.exposed hold hnew).imp id fun hfresh => hfresh.snoc hcommand hspares
    · rcases hplace with rfl | htemp
      · exact absurd (hlow.dest loc rfl) (Nat.not_lt.mpr hnew)
      · exact Or.inr ⟨passed, stmt, [], rfl, htemp, nofun⟩

/-- Commands of the original body name old locations only. -/
theorem Sited.low (hsited : Sited original body temps) (wf : WellFormed original) {stmt : Inst}
    {command : Command} (hstmt : stmt ∈ body.stmts) (hcommand : body.command? stmt = some command) :
    Low original stmt command := by
  rw [hsited.stmts_eq] at hstmt
  rw [hsited.command?_eq] at hcommand
  have hvalid := wf.valid hstmt hcommand
  refine ⟨hvalid.reads, ?_⟩
  intro dest hdest
  obtain ⟨location, hlocation, -⟩ := hvalid.dest dest hdest
  exact (Array.getElem?_eq_some_iff.mp hlocation).1

/-! ## Tables on the way -/

/-- The table behind a save of a term. -/
theorem saved_table (walk : Walk) (stmt : Inst) (term : Term) (dest : Loc) (source : Option Loc) :
    (saved temps walk stmt term dest source).table =
      if term.mentions dest then
        (walk.table.ofTerm term).2.define dest (walk.table.ofTerm term).1
      else
        match temps[stmt]? with
        | none => (walk.table.ofTerm term).2.define dest (walk.table.ofTerm term).1
        | some temp =>
          let table := ((walk.table.ofTerm term).2.define dest (walk.table.ofTerm term).1).define
            temp (walk.table.ofTerm term).1
          if term.isLeaf then table else table.remember (walk.table.ofTerm term).1 temp := by
  simp only [saved, Walk.recordTerm]
  split
  · rfl
  · split <;> simp_all

/-- A call keeps the numbers of temporaries. -/
theorem Called.table {stmt : Inst} {command : Command} {walk called : Walk}
    (h : Called body stmt command walk called) (htable : walk.table.Bounded body) :
    called.table.Bounded body ∧ called.table.temps = walk.table.temps := by
  cases h with
  | silent h => exact ⟨htable, rfl⟩
  | outward h hindexed hfacts hbounded hspared => exact ⟨hbounded, hspared.temps⟩

/-- A move keeps the numbers bounded, and remembers the temporary of its own site only. -/
theorem Move.table {stmt : Inst} {command : Command} {walk next : Walk}
    (h : Move body temps stmt command walk next) (hvalid : command.Valid body stmt)
    (htemp : ∀ {temp : Loc}, temps[stmt]? = some temp →
      body.locations[temp.index]? = some .temp)
    (htable : walk.table.Bounded body) :
    next.table.Bounded body ∧ ∀ {number : ValueNumber} {temp : Loc},
      next.table.temps[number]? = some temp →
        walk.table.temps[number]? = some temp ∨ temps[stmt]? = some temp := by
  have hdest : ∀ {dest : Loc}, command.dest? = some dest →
      dest.index < body.locations.size := by
    intro dest hdest
    obtain ⟨location, hlocation, -⟩ := hvalid.dest dest hdest
    exact (Array.getElem?_eq_some_iff.mp hlocation).1
  cases h with
  | idle hnone hcalled =>
      obtain ⟨hbounded, htemps⟩ := hcalled.table htable
      exact ⟨hbounded, fun hnumber => Or.inl (htemps ▸ hnumber)⟩
  | @overwrite called value dest hsave hterm hcalled =>
      obtain ⟨hbounded, htemps⟩ := hcalled.table htable
      have hfresh : called.table.fresh.2.Bounded body := ⟨hbounded.locs, hbounded.temps⟩
      refine ⟨hfresh.define (hdest (by rw [hsave]; rfl)) _, fun hnumber => Or.inl ?_⟩
      rw [← htemps]
      exact (NumberTable.temps_define hnumber).1
  | @term value dest term source hsave hterm hsource =>
      have hoperands : ∀ loc ∈ term.operands, loc.index < body.locations.size := by
        intro loc hloc
        obtain ⟨access, haccess, rfl⟩ := Value.mem_operands_term hterm hloc
        exact hvalid.reads access (by rw [hsave]; exact haccess)
      -- the number of the term goes to the destination, and to the temporary at its site
      have hwritten : ((walk.table.ofTerm term).2.define dest
            (walk.table.ofTerm term).1).Bounded body :=
        (htable.ofTerm hoperands).define (hdest (by rw [hsave]; rfl)) _
      have hold : ∀ {number : ValueNumber} {temp : Loc}, ((walk.table.ofTerm term).2.define dest
          (walk.table.ofTerm term).1).temps[number]? = some temp →
          walk.table.temps[number]? = some temp ∨ temps[stmt]? = some temp := by
        intro number temp hnumber
        left
        rw [← NumberTable.ofTerm_temps term]
        exact (NumberTable.temps_define hnumber).1
      rw [saved_table]
      split
      · exact ⟨hwritten, hold⟩
      · cases htemps : temps[stmt]? with
        | none =>
            rw [htemps] at hold
            exact ⟨hwritten, hold⟩
        | some temp =>
            have hplace := htemp htemps
            have hcopied := hwritten.define (Array.getElem?_eq_some_iff.mp hplace).1
              (walk.table.ofTerm term).1
            rw [htemps] at hold
            dsimp only
            split
            · exact ⟨hcopied, fun hnumber => hold (NumberTable.temps_define hnumber).1⟩
            · refine ⟨hcopied.remember hplace _, fun hnumber => ?_⟩
              rcases NumberTable.temps_remember hnumber with ⟨-, rfl⟩ | hnumber
              · exact Or.inr rfl
              · exact hold (NumberTable.temps_define hnumber).1

/-! ## Whole blocks -/

/-- A temporary is a location of its kind. -/
theorem Sited.temp_location (hsited : Sited original body temps) {stmt : Inst} {temp : Loc}
    (h : temps[stmt]? = some temp) : body.locations[temp.index]? = some .temp :=
  hsited.new (hsited.temp h).1 (hsited.temp h).2

/-- A walk starts at the facts that flow in. -/
theorem Tracked.start {facts : Available} (h : Flowing original body temps [] facts) :
    Tracked original body temps [] { facts } where
  facts := h
  table := NumberTable.Bounded.empty body
  temps hnumber := by cases hnumber

variable (hsited : Sited original body temps) (wf : WellFormed original)
include hsited wf

/-- A walk stays tracked over a statement. -/
theorem Tracked.step {passed : List Inst} {stmt : Inst} {command : Command} {walk : Walk}
    (h : Tracked original body temps passed walk) (hstmt : stmt ∈ body.stmts)
    (hcommand : body.command? stmt = some command) :
    ∃ next, Walk.step body temps walk stmt = .ok next ∧
      Move body temps stmt command walk next ∧
      Stepped body temps stmt command walk.facts next.facts ∧
      Tracked original body temps (passed ++ [stmt]) next := by
  have hvalid := (hsited.wellFormed wf).valid hstmt hcommand
  obtain ⟨next, hstep, hmove⟩ := step_ok hcommand hvalid h.facts.indexed h.table
  have hstepped := hmove.stepped hvalid (fun htemp => (hsited.temp htemp).2) h.facts.indexed
  obtain ⟨hbounded, htemps⟩ :=
    hmove.table hvalid hsited.temp_location h.table
  refine ⟨next, hstep, hmove, hstepped,
    h.facts.step hcommand (hsited.low wf hstmt hcommand) hstepped, hbounded, ?_⟩
  intro number temp hnumber
  rcases htemps hnumber with hold | hnew
  · obtain ⟨site, hsite, htemp⟩ := h.temps hold
    exact ⟨site, List.mem_append_left _ hsite, htemp⟩
  · exact ⟨stmt, List.mem_append_right _ List.mem_cons_self, hnew⟩

/-- Statements are walked over one by one. -/
theorem Tracked.steps {rest passed : List Inst} {walk : Walk}
    (h : Tracked original body temps passed walk) (hrest : ∀ stmt ∈ rest, stmt ∈ body.stmts) :
    ∃ last, rest.foldlM (Walk.step body temps) walk = .ok last ∧
      Tracked original body temps (passed ++ rest) last := by
  induction rest generalizing passed walk with
  | nil =>
      refine ⟨walk, rfl, ?_⟩
      rw [List.append_nil]
      exact h
  | cons stmt rest ih =>
      have hstmt := hrest stmt List.mem_cons_self
      obtain ⟨command, hcommand, -⟩ := (hsited.wellFormed wf).commands stmt hstmt
      obtain ⟨next, hstep, -, -, hnext⟩ := h.step hsited wf hstmt hcommand
      obtain ⟨last, hlast, hdone⟩ :=
        ih hnext fun other hother => hrest other (List.mem_cons_of_mem _ hother)
      refine ⟨last, ?_, ?_⟩
      · rw [List.foldlM_cons, hstep]
        exact hlast
      · rw [List.append_assoc] at hdone
        exact hdone

/-- **WALKS OVER BLOCKS** give a result. -/
theorem walkBlock_ok {facts : Available} (h : Flowing original body temps [] facts)
    (block : Block) : ∃ walk, walkBlock body temps block facts = .ok walk ∧
      Tracked original body temps (body.stmtsOf block) walk :=
  (Tracked.start h).steps hsited wf fun _ hstmt => Body.mem_stmts_of_stmtsOf hstmt

/-- The states of a solution are about exposed temporaries only. -/
theorem flowing_solution {steps : Nat} {graph : FlowGraph} {solution : Solution Available}
    (h : solve steps graph (analysis body temps) = .ok solution) :
    Worklist.Satisfies (Flowing original body temps []) solution := by
  refine solve_invariant h Flowing.empty Flowing.empty ?_ ?_
  · intro a b ha hb
    obtain ⟨hindexed, hhas, hholds⟩ := Available.meet_spec ha.indexed
    exact ha.weaken hindexed (fun hterm => (hhas hterm).1) (fun hloc => (hholds hloc).1)
  · intro block input output hinput houtput
    obtain ⟨walk, hwalk, rfl⟩ := Checked.map_eq_ok houtput
    obtain ⟨walk', hwalk', htracked⟩ := walkBlock_ok hsited wf hinput block
    rw [hwalk] at hwalk'
    cases hwalk'
    exact htracked.facts.leave

end

end DecafBackend.CommonTerms
