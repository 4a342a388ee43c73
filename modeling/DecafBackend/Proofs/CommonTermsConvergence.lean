import DecafBackend.Lowering
import DecafBackend.Proofs.AvailableSets
import DecafBackend.Proofs.CommonTerms
import DecafBackend.Proofs.Convergence

/-! # When the search for common subexpressions comes to an end

    Every statement takes away and adds the same facts, whatever is known in
    front of it, and where paths meet only their common facts are left.  So the
    analysis comes to an end in a body without unreachable blocks.

    A block that nothing flows into yet starts without facts, and may have some
    when it is evaluated again.  In a body with unreachable blocks such facts
    and their absence can follow each other round a loop forever.

    * `behind`, `step_facts` — the facts behind a statement
    * `Within.step`, `descends` — facts are only lost
    * `solves_of_allReached` — the analysis comes to an end
    * `circledTerms_unsettled` — a body in which it does not -/

namespace DecafBackend.CommonTerms

open Available (Consistent)

variable {original body : Body} {temps : Std.ExtTreeMap Inst Loc}

/-! ## The facts behind a statement -/

/-- The facts behind what a statement writes; `called` are those behind its call. -/
def behind (temps : Std.ExtTreeMap Inst Loc) (stmt : Inst) (called : Available) :
    Command → Available
  | .save value dest =>
    match value.term? with
    | none => called.kill dest
    | some term =>
      if term.mentions dest then called.kill dest
      else
        match temps[stmt]? with
        | none => (called.kill dest).register term dest
        | some temp => (((called.kill dest).register term dest).kill temp).register term temp
  | _ => called

/-- The facts behind the call of a statement, if it makes one. -/
def calledFacts (body : Body) (facts : Available) (stmt : Inst) (command : Command) :
    Checked Available :=
  if (command.callInst? stmt).isSome then facts.killGlobals body else .ok facts

/-- What a save of a term leaves of the facts. -/
theorem saveTerm_facts {walk next : Walk} {stmt : Inst} {term : Term} {dest : Loc}
    (h : Walk.saveTerm body temps walk stmt term dest = .ok next) :
    next.facts = if term.mentions dest then walk.facts.kill dest
      else
        match temps[stmt]? with
        | none => (walk.facts.kill dest).register term dest
        | some temp =>
          (((walk.facts.kill dest).register term dest).kill temp).register term temp := by
  rw [Walk.saveTerm] at h
  generalize walk.table.ofTerm term = numbered at h
  obtain ⟨number, table⟩ := numbered
  obtain ⟨source, -, h⟩ := Checked.bind_eq_ok h
  dsimp only at h
  split at h
  · next hmentions =>
      cases h
      rw [if_pos hmentions]
  · next hmentions =>
      cases h
      rw [if_neg hmentions, Walk.recordTerm]
      cases temps[stmt]? with
      | none => rfl
      | some temp => rfl

/-- What a write leaves of the facts, whatever the numbers are. -/
theorem write_facts {called next : Walk} {stmt : Inst} {command : Command}
    (hcommand : body.command? stmt = some command)
    (h : write body temps called stmt = .ok next) :
    next.facts = behind temps stmt called.facts command := by
  have hparts := Body.command?_eq_some.mp hcommand
  cases command with
  | save value dest =>
      simp only [write, Body.record_eq hparts.1, termOf_eq hparts.2, bind, Except.bind] at h
      rw [behind]
      cases hterm : value.term? with
      | none =>
          rw [hterm] at h
          cases h
          rfl
      | some term =>
          rw [hterm] at h
          exact saveTerm_facts h
  | branch cond target =>
      rw [write, Body.record_eq hparts.1] at h
      cases h
      rfl
  | ret value =>
      cases value with
      | none =>
          rw [write, Body.record_eq hparts] at h
          cases h
          rfl
      | some value =>
          rw [write, Body.record_eq hparts.1] at h
          cases h
          rfl
  | call | use | label | jump | exit =>
      rw [write, Body.record_eq hparts] at h
      cases h
      rfl

/-- **FACTS DEPEND ON FACTS ONLY**: numbers and changes found on the way have
    no part in the facts behind a statement. -/
theorem step_facts {walk next : Walk} {stmt : Inst} {command : Command}
    (hcommand : body.command? stmt = some command)
    (h : Walk.step body temps walk stmt = .ok next) :
    ∃ called, calledFacts body walk.facts stmt command = .ok called ∧
      next.facts = behind temps stmt called command := by
  rw [Walk.step, Body.hasCall_eq hcommand] at h
  rw [calledFacts]
  -- a call takes fields away first; the numbers of values are forgotten beside the facts
  cases hcall : command.callInst? stmt with
  | none =>
      simp only [hcall, bind, Except.bind, pure, Except.pure, Option.isSome_none,
        Bool.false_eq_true, if_false] at h ⊢
      exact ⟨walk.facts, rfl, write_facts hcommand h⟩
  | some call =>
      simp only [hcall, bind, Except.bind, pure, Except.pure, Option.isSome_some, if_true] at h ⊢
      cases hkill : walk.facts.killGlobals body with
      | error fault => rw [hkill] at h; cases h
      | ok facts =>
          rw [hkill] at h
          dsimp only at h
          cases hforget : walk.table.forgetGlobals body with
          | error fault => rw [hforget] at h; cases h
          | ok table =>
              rw [hforget] at h
              exact ⟨facts, rfl, write_facts hcommand h⟩

/-! ## Facts within others -/

/-- The facts of a state are among those of another one. -/
structure Within (few many : Available) : Prop where
  has : ∀ {term : Term}, few.Has term → many.Has term
  holds : ∀ {term : Term} {loc : Loc}, few.Holds term loc → many.Holds term loc

namespace Within

variable {few many few' many' : Available} {size : Nat}

/-- A write leaves facts within others. -/
theorem kill (h : Within few many) (hfew : few.Consistent size) (hmany : many.Consistent size)
    (loc : Loc) : Within (few.kill loc) (many.kill loc) where
  has hhas := by
    obtain ⟨hhas, hnot⟩ := (Available.has_kill_iff hfew).mp hhas
    exact (Available.has_kill_iff hmany).mpr ⟨h.has hhas, hnot⟩
  holds hholds := by
    obtain ⟨hholds, hnot⟩ := (Available.holds_kill_iff hfew).mp hholds
    exact (Available.holds_kill_iff hmany).mpr ⟨h.holds hholds, hnot⟩

/-- A holder more leaves facts within others. -/
theorem register (h : Within few many) (hfew : few.Consistent size)
    (hmany : many.Consistent size) (term : Term) (loc : Loc) :
    Within (few.register term loc) (many.register term loc) where
  has hhas := Available.has_register_iff.mpr ((Available.has_register_iff.mp hhas).imp id h.has)
  holds hholds := by
    refine (Available.holds_register_iff hmany.indexed).mpr ?_
    exact ((Available.holds_register_iff hfew.indexed).mp hholds).imp id
      fun hold => ⟨h.holds hold.1, hold.2⟩

end Within

/-- The places that a statement names are among the locations. -/
structure Placed (body : Body) (temps : Std.ExtTreeMap Inst Loc) (stmt : Inst)
    (command : Command) : Prop where
  valid : command.Valid body stmt
  temp : ∀ {temp : Loc}, temps[stmt]? = some temp → temp.index < body.locations.size

section

variable {stmt : Inst} {command : Command} (hplaced : Placed body temps stmt command)
include hplaced

/-- What a save writes is a location of the body. -/
theorem Placed.dest {value : Value} {dest : Loc} (h : command = .save value dest) :
    dest.index < body.locations.size := by
  obtain ⟨location, hlocation, -⟩ := hplaced.valid.dest dest (by rw [h]; rfl)
  exact (Array.getElem?_eq_some_iff.mp hlocation).1

/-- The operands of a saved term are locations of the body. -/
theorem Placed.operands {value : Value} {dest : Loc} {term : Term}
    (h : command = .save value dest) (hterm : value.term? = some term) :
    ∀ loc ∈ term.operands, loc.index < body.locations.size := by
  intro loc hloc
  obtain ⟨access, haccess, rfl⟩ := Value.mem_operands_term hterm hloc
  exact hplaced.valid.reads access (by rw [h]; exact haccess)

/-- What a statement writes keeps states consistent, keeps facts within
    others, and makes no terms but its own available. -/
theorem behind_spec {few many : Available} (h : Within few many)
    (hfew : few.Consistent body.locations.size) (hmany : many.Consistent body.locations.size) :
    (behind temps stmt few command).Consistent body.locations.size ∧
      Within (behind temps stmt few command) (behind temps stmt many command) ∧
      ∀ {term}, (behind temps stmt few command).Has term → few.Has term ∨
        ∃ value dest, command = .save value dest ∧ value.term? = some term := by
  cases command with
  | save value dest =>
      rw [behind, behind]
      have hkept := hfew.kill dest
      have hkept' := hmany.kill dest
      have hwithin := h.kill hfew hmany dest
      -- to take away adds nothing, so a term is old or the one that is saved
      have hold : ∀ {e}, (few.kill dest).Has e → few.Has e :=
        fun he => ((Available.has_kill_iff hfew).mp he).1
      cases hterm : value.term? with
      | none => exact ⟨hkept, hwithin, fun he => Or.inl (hold he)⟩
      | some term =>
          dsimp only
          split
          · exact ⟨hkept, hwithin, fun he => Or.inl (hold he)⟩
          · have hoperands := hplaced.operands rfl hterm
            have hdest := hplaced.dest rfl
            have hsaved := hkept.register hoperands hdest
            have hsaved' := hkept'.register hoperands hdest
            have hwithin' := hwithin.register hkept hkept' term dest
            have hnew : ∀ {e}, ((few.kill dest).register term dest).Has e → few.Has e ∨
                ∃ value' dest', Command.save value dest = .save value' dest' ∧
                  value'.term? = some e := by
              intro e he
              rcases Available.has_register_iff.mp he with rfl | he
              · exact Or.inr ⟨value, dest, rfl, hterm⟩
              · exact Or.inl (hold he)
            cases htemp : temps[stmt]? with
            | none => exact ⟨hsaved, hwithin', hnew⟩
            | some temp =>
                refine ⟨(hsaved.kill temp).register hoperands (hplaced.temp htemp),
                  (hwithin'.kill hsaved hsaved' temp).register (hsaved.kill temp)
                    (hsaved'.kill temp) term temp, fun he => ?_⟩
                rcases Available.has_register_iff.mp he with rfl | he
                · exact Or.inr ⟨value, dest, rfl, hterm⟩
                · exact hnew ((Available.has_kill_iff hsaved).mp he).1
  | call | use | label | jump | branch | ret | exit => exact ⟨hfew, h, fun he => Or.inl he⟩

omit hplaced in
/-- A call keeps states consistent, and facts within others. -/
theorem called_spec {few many called called' : Available} (h : Within few many)
    (hfew : few.Consistent body.locations.size) (hmany : many.Consistent body.locations.size)
    (hcalled : calledFacts body few stmt command = .ok called)
    (hcalled' : calledFacts body many stmt command = .ok called') :
    called.Consistent body.locations.size ∧ called'.Consistent body.locations.size ∧
      Within called called' ∧ ∀ {term}, called.Has term → few.Has term := by
  rw [calledFacts] at hcalled hcalled'
  split at hcalled
  · next hcall =>
      rw [if_pos hcall] at hcalled'
      obtain ⟨left, hleft, hc, hhas, hholds⟩ := Available.killGlobals_spec hfew
      obtain ⟨left', hleft', hc', hhas', hholds'⟩ := Available.killGlobals_spec hmany
      rw [hcalled] at hleft
      cases hleft
      rw [hcalled'] at hleft'
      cases hleft'
      refine ⟨hc, hc', ⟨fun he => ?_, fun hx => ?_⟩, fun he => ((hhas _).mp he).1⟩
      · exact (hhas' _).mpr ⟨h.has ((hhas _).mp he).1, ((hhas _).mp he).2⟩
      · exact (hholds' _ _).mpr ⟨h.holds ((hholds _ _).mp hx).1, ((hholds _ _).mp hx).2⟩
  · next hcall =>
      rw [if_neg hcall] at hcalled'
      cases hcalled
      cases hcalled'
      exact ⟨hfew, hmany, h, fun he => he⟩

end

/-! ## Walks -/

/-- The terms that the saves of a body compute. -/
def savedTerms (body : Body) : List Term :=
  body.stmts.filterMap fun stmt =>
    match body.command? stmt with
    | some (.save value _) => value.term?
    | _ => none

/-- Consistent facts about terms of the body. -/
structure Exact (body : Body) (facts : Available) : Prop where
  consistent : facts.Consistent body.locations.size
  saved : ∀ {term : Term}, facts.Has term → term ∈ savedTerms body

/-- The empty state is exact. -/
theorem Exact.empty : Exact body {} :=
  ⟨Consistent.empty, fun h => absurd h Available.not_has_empty⟩

/-- Where paths meet, states stay exact. -/
theorem Exact.meet {facts other : Available} (h : Exact body facts) :
    Exact body (facts.meet other) := by
  obtain ⟨hc, hhas, -⟩ := @Available.meet_iff facts other _ h.consistent
  exact ⟨hc, fun he => h.saved ((hhas _).mp he).1⟩

section

variable (hsited : Sited original body temps) (wf : WellFormed original)
include hsited wf

/-- A step of a walk keeps facts within others. -/
theorem Within.step {few many next next' : Walk} {stmt : Inst} (hstmt : stmt ∈ body.stmts)
    (h : Within few.facts many.facts) (hfew : Exact body few.facts) (hmany : Exact body many.facts)
    (hstep : Walk.step body temps few stmt = .ok next)
    (hstep' : Walk.step body temps many stmt = .ok next') :
    Exact body next.facts ∧ Within next.facts next'.facts := by
  obtain ⟨command, hcommand, hvalid⟩ := (hsited.wellFormed wf).commands stmt hstmt
  have hplaced : Placed body temps stmt command := ⟨hvalid, fun htemp => (hsited.temp htemp).2⟩
  obtain ⟨called, hcalled, hnext⟩ := step_facts hcommand hstep
  obtain ⟨called', hcalled', hnext'⟩ := step_facts hcommand hstep'
  obtain ⟨hc, hc', hwithin, hold⟩ :=
    called_spec h hfew.consistent hmany.consistent hcalled hcalled'
  obtain ⟨hbehind, hwithin', hnew⟩ := behind_spec hplaced hwithin hc hc'
  rw [hnext, hnext']
  refine ⟨⟨hbehind, fun he => ?_⟩, hwithin'⟩
  rcases hnew he with he | ⟨value, dest, rfl, hterm⟩
  · exact hfew.saved (hold he)
  · refine List.mem_filterMap.mpr ⟨stmt, hstmt, ?_⟩
    rw [hcommand]
    exact hterm

/-- States stay exact over a statement. -/
theorem Exact.step {walk next : Walk} {stmt : Inst} (hstmt : stmt ∈ body.stmts)
    (h : Exact body walk.facts) (hstep : Walk.step body temps walk stmt = .ok next) :
    Exact body next.facts :=
  (Within.step hsited wf hstmt ⟨fun he => he, fun hx => hx⟩ h h hstep hstep).1

/-- States stay exact over statements. -/
theorem Exact.steps {walk last : Walk} {stmts : List Inst}
    (hstmts : ∀ stmt ∈ stmts, stmt ∈ body.stmts)
    (h : Exact body walk.facts) (hsteps : stmts.foldlM (Walk.step body temps) walk = .ok last) :
    Exact body last.facts := by
  induction stmts generalizing walk with
  | nil =>
      cases hsteps
      exact h
  | cons stmt stmts ih =>
      rw [List.foldlM_cons] at hsteps
      obtain ⟨next, hstep, hsteps⟩ := Checked.bind_eq_ok hsteps
      exact ih (fun other hother => hstmts other (List.mem_cons_of_mem _ hother))
        (h.step hsited wf (hstmts stmt List.mem_cons_self) hstep) hsteps

/-- A block keeps facts within others. -/
theorem Within.steps {few many last last' : Walk} {stmts : List Inst}
    (hstmts : ∀ stmt ∈ stmts, stmt ∈ body.stmts) (h : Within few.facts many.facts)
    (hfew : Exact body few.facts) (hmany : Exact body many.facts)
    (hsteps : stmts.foldlM (Walk.step body temps) few = .ok last)
    (hsteps' : stmts.foldlM (Walk.step body temps) many = .ok last') :
    Within last.facts last'.facts := by
  induction stmts generalizing few many with
  | nil =>
      cases hsteps
      cases hsteps'
      exact h
  | cons stmt stmts ih =>
      rw [List.foldlM_cons] at hsteps hsteps'
      obtain ⟨next, hstep, hsteps⟩ := Checked.bind_eq_ok hsteps
      obtain ⟨next', hstep', hsteps'⟩ := Checked.bind_eq_ok hsteps'
      have hstmt := hstmts stmt List.mem_cons_self
      obtain ⟨hnext, hwithin⟩ := Within.step hsited wf hstmt h hfew hmany hstep hstep'
      exact ih (fun other hother => hstmts other (List.mem_cons_of_mem _ hother)) hwithin hnext
        (hmany.step hsited wf hstmt hstep') hsteps hsteps'

end

/-! ## Facts are lost only -/

/-- Whether a term is available, or is held by a location. -/
def holds : Term × Option Loc → Available → Bool
  | (term, none), facts => facts.contains term
  | (term, some loc), facts => (facts.holdersOf term).contains loc

/-- A fact without a holder says that its term is available. -/
theorem holds_none {term : Term} {facts : Available} :
    holds (term, none) facts = true ↔ facts.Has term := Std.ExtTreeMap.contains_iff_mem

/-- A fact with a holder says that this one holds the term. -/
theorem holds_some {term : Term} {loc : Loc} {facts : Available} :
    holds (term, some loc) facts = true ↔ facts.Holds term loc := by
  rw [holds, List.contains_iff_mem, Available.mem_holdersOf]

/-- Facts are lost just where the later state is within the earlier one. -/
theorem loses_iff {early late : Available} : Loses holds early late ↔ Within late early := by
  constructor
  · intro h
    exact ⟨fun he => holds_none.mp (h _ (holds_none.mpr he)),
      fun hx => holds_some.mp (h _ (holds_some.mpr hx))⟩
  · rintro h ⟨term, none | loc⟩ hholds
    · exact holds_none.mpr (h.has (holds_none.mp hholds))
    · exact holds_some.mpr (h.holds (holds_some.mp hholds))

/-- The facts that there can be about a body. -/
def factsOf (body : Body) : List (Term × Option Loc) :=
  (savedTerms body).flatMap fun term =>
    (term, none) :: (List.range body.locations.size).map fun i => (term, some ⟨i⟩)

/-- An available term is one of the finitely many facts. -/
theorem Exact.mem_has {facts : Available} (h : Exact body facts) {term : Term}
    (hhas : facts.Has term) : (term, none) ∈ factsOf body :=
  List.mem_flatMap.mpr ⟨term, h.saved hhas, List.mem_cons_self⟩

/-- A holder of a term is one of the finitely many facts. -/
theorem Exact.mem_holds {facts : Available} (h : Exact body facts) {term : Term} {loc : Loc}
    (hholds : facts.Holds term loc) : (term, some loc) ∈ factsOf body := by
  refine List.mem_flatMap.mpr ⟨term, h.saved hholds.has, List.mem_cons_of_mem _ ?_⟩
  have hlt := h.consistent.indexed.holder_lt hholds
  exact List.mem_map.mpr ⟨loc.index, List.mem_range.mpr hlt, rfl⟩

section

variable (hsited : Sited original body temps) (wf : WellFormed original)
include hsited wf

/-- Every block takes away and adds the same facts whatever flows into it. -/
theorem descends {graph : FlowGraph} : (analysis body temps).Descends graph
    (fun facts => Flowing original body temps [] facts ∧ Exact body facts) holds
    (factsOf body) where
  initial := ⟨Flowing.empty, Exact.empty⟩
  bottom := ⟨Flowing.empty, Exact.empty⟩
  -- the inputs of a block are joined by meeting, which keeps what both have
  join {a b} ha _ := by
    obtain ⟨hindexed, hhas, hholds⟩ := @Available.meet_spec _ a b ha.1.indexed
    refine ⟨ha.1.weaken hindexed (fun he => (hhas he).1) (fun hx => (hholds hx).1), ha.2.meet⟩
  holds_join {a b} ha _ := by
    obtain ⟨-, hhas, hholds⟩ := @Available.meet_iff a b _ ha.2.consistent
    rintro ⟨term, none | loc⟩
    · rw [holds_none, holds_none, holds_none]
      exact hhas term
    · rw [holds_some, holds_some, holds_some]
      exact hholds term loc
  -- states with the same facts are equal, since each index can be read off the facts
  ext {a b} ha hb hsame := by
    refine Available.eq_of_facts ha.2.consistent hb.2.consistent (fun term => ?_) fun term loc => ?_
    · have hagree : (term, none) ∈ factsOf body → (a.Has term ↔ b.Has term) := by
        intro hmem
        rw [← holds_none, ← holds_none, hsame _ hmem]
      exact ⟨fun he => (hagree (ha.2.mem_has he)).mp he,
        fun he => (hagree (hb.2.mem_has he)).mpr he⟩
    · have hagree : (term, some loc) ∈ factsOf body → (a.Holds term loc ↔ b.Holds term loc) := by
        intro hmem
        rw [← holds_some, ← holds_some, hsame _ hmem]
      exact ⟨fun hx => (hagree (ha.2.mem_holds hx)).mp hx,
        fun hx => (hagree (hb.2.mem_holds hx)).mpr hx⟩
  transfer {block facts} _ h := by
    obtain ⟨walk, hwalk, htracked⟩ := walkBlock_ok hsited wf h.1 block
    refine ⟨walk.facts, ?_, htracked.facts.leave, ?_⟩
    · show Walk.facts <$> walkBlock body temps block facts = _
      rw [hwalk]
      rfl
    · exact Exact.steps hsited wf (fun _ => Body.mem_stmts_of_stmtsOf) h.2 hwalk
  -- a walk is monotone: the state with fewer facts stays within the other one
  mono {block a b output output'} _ ha hb hloses htransfer htransfer' := by
    obtain ⟨walk, hwalk, rfl⟩ := Checked.map_eq_ok htransfer
    obtain ⟨walk', hwalk', rfl⟩ := Checked.map_eq_ok htransfer'
    refine loses_iff.mpr (Within.steps hsited wf (fun _ => Body.mem_stmts_of_stmtsOf)
      (loses_iff.mp hloses) hb.2 ha.2 hwalk' hwalk)

end

/-- **THE SEARCH COMES TO AN END** in a body without unreachable blocks. -/
theorem solves_of_allReached (wf : WellFormed body) (hreached : body.AllReached) :
    ∃ steps, Solves steps body := by
  obtain ⟨graph, hgraph, hflow⟩ := wf.flowGraph_ok
  obtain ⟨temps, sited, htemps, hsited⟩ := siteTemps_ok wf
  have hclosed := wf.closed hflow
  obtain ⟨solution, hsolve⟩ := solve_of_descends (descends hsited wf) hclosed
    (Or.inl (Analysis.fed_of_reached rfl hclosed (hreached graph hgraph))) (Nat.le_refl _)
  exact ⟨_, graph, temps, sited, solution, hgraph, htemps, hsolve⟩

/-- The facts of sums on both branches settle. -/
theorem joinedSums_solves : ∃ steps, Solves steps joinedSums :=
  solves_of_allReached (by decide +kernel) (Body.allReached_of_reachesAll (by decide +kernel))

/-! ## Facts that follow each other -/

open Source in
/-- A loop around a second loop that control never comes to, and that computes
    what the method has computed before. -/
def circling : Method where
  name := "f"
  params := ["a", "b", "p", "q", "r", "x", "y"]
  returnsValue := false
  body :=
    let sum (target : String) : Stmt :=
      .assign target .assign (.binary (.strict .add) (.var "a") (.var "b"))
    .mk [] [sum "x", sum "y", .whileLoop (.var "p") (.mk [] [.cond (.var "q")
      (.mk [] [.ret none, .whileLoop (.var "r") (.mk [] [sum "y"])]) none])]

/-- What the loops are lowered to. -/
def circledTerms : Body := (Lowering.lowerMethod {} circling).1

/-- The head of the inner loop is evaluated before anything flows into it, and
    has no facts then; when it is evaluated again, it has the sum.  Its first
    and its second output follow each other round the outer loop forever. -/
theorem circledTerms_unsettled : (¬ ∃ steps, Solves steps circledTerms) ∧
    ∀ steps, eliminateCommonTerms steps circledTerms = .error .unsettled := by
  obtain ⟨graph, hgraph, hreturns⟩ := @FlowGraph.exists_of_test circledTerms
    (fun graph => (siteTemps circledTerms).toOption.any fun result =>
      Worklist.returns graph (analysis result.2 result.1) 21 9) (by decide +kernel)
  cases hsited : siteTemps circledTerms with
  | error fault => rw [hsited] at hreturns; cases hreturns
  | ok result =>
      obtain ⟨temps, sited⟩ := result
      rw [hsited] at hreturns
      replace hreturns : Worklist.returns graph (analysis sited temps) 21 9 = true := hreturns
      -- whatever number of steps is granted, the round comes back to where it began
      constructor
      · rintro ⟨steps, graph', temps', sited', solution, hgraph', hsited', hsolve⟩
        rw [hgraph] at hgraph'
        rw [hsited] at hsited'
        cases hgraph'
        cases hsited'
        rw [unsettled_of_returns hreturns steps] at hsolve
        cases hsolve
      · intro steps
        rw [eliminateCommonTerms, hgraph, hsited]
        simp only [bind, Except.bind, unsettled_of_returns hreturns steps]

end DecafBackend.CommonTerms
