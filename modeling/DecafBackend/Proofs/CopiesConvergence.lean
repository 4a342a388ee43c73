import DecafBackend.Lowering
import DecafBackend.Proofs.Convergence
import DecafBackend.Proofs.Copies

/-! # When copy propagation comes to an end

    What a save of a location records depends on the copies in front of it: if
    the location is a copy itself, then what it was copied from is recorded.  So
    a copy that is lost can bring about another one, and round a loop the copies
    can chase each other forever.  Where no copy is copied, every statement
    takes away and adds the same copies whatever is known in front of it, and
    the analysis comes to an end.

    * `Body.Unchained` — no copy is copied
    * `Loses.steps` — a block loses copies that its start loses
    * `solves_of_unchained` — the analysis comes to an end
    * `chasedCopies_unsettled` — a loop in which it does not -/

namespace DecafBackend

namespace Body

/-- The saves that copy a location: what is copied, and where to. -/
def copySaves (body : Body) : List (Loc × Loc) :=
  body.stmts.filterMap fun stmt =>
    match body.command? stmt with
    | some (.save (.load src) dest) => some (src.loc, dest)
    | _ => none

/-- No copy is copied. -/
def Unchained (body : Body) : Prop :=
  ∀ save ∈ body.copySaves, ∀ other ∈ body.copySaves, other.2 ≠ save.1

instance (body : Body) : Decidable body.Unchained :=
  inferInstanceAs (Decidable (∀ save ∈ body.copySaves, ∀ other ∈ body.copySaves, other.2 ≠ save.1))

/-- A save of a load is one of the copies of the body. -/
theorem mem_copySaves {body : Body} {stmt : Inst} {src : Access} {dest : Loc}
    (hstmt : stmt ∈ body.stmts) (h : body.command? stmt = some (.save (.load src) dest)) :
    (src.loc, dest) ∈ body.copySaves := by
  refine List.mem_filterMap.mpr ⟨stmt, hstmt, ?_⟩
  rw [h]

end Body

namespace Copies

variable {body : Body} {copies other : Copies}

/-- Copies that a body can bring about: those that its saves make. -/
structure Made (body : Body) (copies : Copies) : Prop where
  bound : Bound body copies
  saved : ∀ {dest src}, copies.Has dest src → ∃ save ∈ body.copySaves, save.2 = dest

/-- No copies are made of saves. -/
theorem Made.empty : Made body {} := ⟨Bound.empty, fun h => absurd h not_has_empty⟩

/-- What two sets of copies share is made of saves. -/
theorem Made.meet (h : Made body copies) : Made body (copies.meet other) :=
  ⟨h.bound.meet, fun hhas => h.saved (has_meet.mp hhas).1⟩

/-- What a save copies is no copy. -/
theorem Made.source?_eq_none (h : Made body copies) (hun : body.Unchained) {src dest : Loc}
    (hsave : (src, dest) ∈ body.copySaves) : copies.source? src = none := by
  cases hsource : copies.source? src with
  | none => rfl
  | some origin =>
      obtain ⟨save, hmem, heq⟩ := h.saved (show copies.Has src origin from hsource)
      exact absurd heq (hun _ hsave _ hmem)

/-- Whether a copy is recorded, as a test. -/
def holds (pair : Loc × Loc) (copies : Copies) : Bool := copies.sources[pair.1]? == some pair.2

theorem holds_iff {pair : Loc × Loc} : holds pair copies = true ↔ copies.Has pair.1 pair.2 :=
  beq_iff_eq

section

variable {stmt : Inst} {command : Command} (hstmt : stmt ∈ body.stmts)
  (hcommand : body.command? stmt = some command) (hvalid : command.Valid body stmt)
include hstmt hcommand hvalid

/-- What is known behind a statement is made of saves. -/
theorem Made.step (h : Made body copies) {next : Copies}
    (hstep : Copies.step body copies stmt = .ok next) : Made body next := by
  refine ⟨h.bound.step hcommand hvalid hstep, fun {dest src} hnext => ?_⟩
  obtain ⟨next', hstep', hhas⟩ := step_spec h.bound hcommand hvalid
  rw [hstep] at hstep'
  cases hstep'
  rcases (hhas dest src).mp hnext with ⟨loaded, rfl, -⟩ | ⟨hold, -⟩
  · exact ⟨_, Body.mem_copySaves hstmt hcommand, rfl⟩
  · exact h.saved hold

/-- A statement adds the same copies whatever is known in front of it. -/
theorem loses_step (hun : body.Unchained) (h : Made body copies) (hother : Made body other)
    (hloses : Loses holds copies other) {next next' : Copies}
    (hstep : Copies.step body copies stmt = .ok next)
    (hstep' : Copies.step body other stmt = .ok next') : Loses holds next next' := by
  intro pair hpair
  obtain ⟨found, hfound, hhas⟩ := step_spec h.bound hcommand hvalid
  obtain ⟨found', hfound', hhas'⟩ := step_spec hother.bound hcommand hvalid
  rw [hstep] at hfound
  cases hfound
  rw [hstep'] at hfound'
  cases hfound'
  rw [holds_iff, hhas'] at hpair
  rw [holds_iff, hhas]
  -- a save adds its copy in both cases, since its source is no copy
  rcases hpair with ⟨loaded, rfl, hsource, hrecordable⟩ | ⟨hold, hspares⟩
  · have hsave := Body.mem_copySaves hstmt hcommand
    rw [hother.source?_eq_none hun hsave] at hsource
    refine Or.inl ⟨loaded, rfl, ?_, hrecordable⟩
    rw [h.source?_eq_none hun hsave]
    exact hsource
  · exact Or.inr ⟨holds_iff.mp (hloses pair (holds_iff.mpr hold)), hspares⟩

end

section

variable (wf : WellFormed body)
include wf

/-- What is known behind statements is made of saves. -/
theorem Made.steps (h : Made body copies) {stmts : List Inst}
    (hstmts : ∀ stmt ∈ stmts, stmt ∈ body.stmts) :
    ∃ next, stmts.foldlM (Copies.step body) copies = .ok next ∧ Made body next := by
  refine Checked.foldlM_ok (Made body) h fun copies stmt hstmt hmade => ?_
  obtain ⟨command, hcommand, hvalid⟩ := wf.commands stmt (hstmts stmt hstmt)
  obtain ⟨next, hstep, -⟩ := step_spec hmade.bound hcommand hvalid
  exact ⟨next, hstep, hmade.step (hstmts stmt hstmt) hcommand hvalid hstep⟩

/-- A block adds the same copies whatever is known in front of it. -/
theorem loses_steps (hun : body.Unchained) {stmts : List Inst}
    (hstmts : ∀ stmt ∈ stmts, stmt ∈ body.stmts) (h : Made body copies) (hother : Made body other)
    (hloses : Loses holds copies other) {next next' : Copies}
    (hsteps : stmts.foldlM (Copies.step body) copies = .ok next)
    (hsteps' : stmts.foldlM (Copies.step body) other = .ok next') : Loses holds next next' := by
  induction stmts generalizing copies other with
  | nil =>
      cases hsteps
      cases hsteps'
      exact hloses
  | cons stmt stmts ih =>
      have hstmt := hstmts stmt List.mem_cons_self
      obtain ⟨command, hcommand, hvalid⟩ := wf.commands stmt hstmt
      rw [List.foldlM_cons] at hsteps hsteps'
      obtain ⟨mid, hmid, hsteps⟩ := Checked.bind_eq_ok hsteps
      obtain ⟨mid', hmid', hsteps'⟩ := Checked.bind_eq_ok hsteps'
      exact ih (fun other hother => hstmts other (List.mem_cons_of_mem _ hother))
        (h.step hstmt hcommand hvalid hmid) (hother.step hstmt hcommand hvalid hmid')
        (loses_step hstmt hcommand hvalid hun h hother hloses hmid hmid') hsteps hsteps'

/-- The pairs of locations of a body. -/
def pairs (body : Body) : List (Loc × Loc) :=
  (List.range body.locations.size).flatMap fun i =>
    (List.range body.locations.size).map fun j => (⟨i⟩, ⟨j⟩)

omit wf in
/-- A copy is a pair of locations of the body. -/
theorem mem_pairs (h : Bound body copies) {dest src : Loc} (hhas : copies.Has dest src) :
    (dest, src) ∈ pairs body := by
  have hdest : dest.index < body.locations.size := by
    refine Nat.lt_of_not_le fun hle => ?_
    have htracked := h.dest hhas
    rw [Body.isTracked, Body.location, Array.getElem?_eq_none hle] at htracked
    cases htracked
  refine List.mem_flatMap.mpr ⟨dest.index, List.mem_range.mpr hdest, ?_⟩
  exact List.mem_map.mpr ⟨src.index, List.mem_range.mpr (h.src hhas), rfl⟩

/-- Where no copy is copied, facts are lost only. -/
theorem descends_of_unchained (hun : body.Unchained) {graph : FlowGraph} :
    (analysis body).Descends graph (Made body) holds (pairs body) where
  initial := Made.empty
  bottom := Made.empty
  join h _ := h.meet
  holds_join _ _ fact := by
    rw [holds_iff, holds_iff, holds_iff]
    exact has_meet
  -- sets of copies that agree on the pairs of the body are the same
  ext {a b} ha hb hsame := by
    refine eq_of_has fun dest src => ?_
    have hagree : (dest, src) ∈ pairs body → (a.Has dest src ↔ b.Has dest src) := by
      intro hmem
      have hholds := hsame (dest, src) hmem
      rw [← @holds_iff a (dest, src), ← @holds_iff b (dest, src), hholds]
    exact ⟨fun hhas => (hagree (mem_pairs ha.bound hhas)).mp hhas,
      fun hhas => (hagree (mem_pairs hb.bound hhas)).mpr hhas⟩
  transfer _ h := h.steps wf fun _ => Body.mem_stmts_of_stmtsOf
  mono _ ha hb hloses htransfer htransfer' :=
    loses_steps wf hun (fun _ => Body.mem_stmts_of_stmtsOf) ha hb hloses htransfer htransfer'

/-- **COPY PROPAGATION COMES TO AN END** in a body without unreachable blocks
    in which no copy is copied. -/
theorem solves_of_unchained (hreached : body.AllReached) (hun : body.Unchained) :
    ∃ steps count after, Solves steps body ∧ propagateCopies steps body = .ok (count, after) := by
  obtain ⟨graph, hgraph, hflow⟩ := wf.flowGraph_ok
  have hclosed := wf.closed hflow
  obtain ⟨solution, hsolve⟩ := solve_of_descends (descends_of_unchained wf hun) hclosed
    (Or.inl (Analysis.fed_of_reached rfl hclosed (hreached graph hgraph))) (Nat.le_refl _)
  have hsolves : Solves _ body := ⟨graph, solution, hgraph, hsolve⟩
  obtain ⟨count, after, -, -, hresult, -⟩ := propagateCopies_propagated wf hsolves
  exact ⟨_, count, after, hsolves, hresult⟩

end

/-- A body that copies one variable in front of a loop and again inside. -/
def copiedTwice : Body where
  name := ⟨0⟩
  records := #[.load ⟨0⟩, .save ⟨0⟩ ⟨2⟩, .load ⟨1⟩, .branch ⟨2⟩ ⟨1⟩,
    .load ⟨0⟩, .save ⟨4⟩ ⟨3⟩, .load ⟨2⟩, .load ⟨3⟩, .binary .add ⟨6⟩ ⟨7⟩, .save ⟨8⟩ ⟨1⟩, .jump ⟨0⟩,
    .ret none]
  locations := #[.localVar ⟨1⟩, .localVar ⟨2⟩, .localVar ⟨3⟩, .localVar ⟨4⟩]
  labels := #[some ⟨1⟩, some ⟨3⟩]
  blocks := #[⟨none, [⟨1⟩]⟩, ⟨some ⟨0⟩, [⟨3⟩]⟩, ⟨none, [⟨5⟩, ⟨9⟩, ⟨10⟩]⟩, ⟨some ⟨1⟩, [⟨11⟩]⟩]

/-- Copies of copies settle where no copy feeds another. -/
theorem copiedTwice_solves : ∃ steps count after,
    Solves steps copiedTwice ∧ propagateCopies steps copiedTwice = .ok (count, after) :=
  solves_of_unchained (by decide +kernel) (Body.allReached_of_reachesAll (by decide +kernel))
    (by decide +kernel)

/-! ## Copies that chase each other -/

open Source in
/-- A loop that hands one value on from variable to variable, and spoils each
    variable after it has handed the value on. -/
def chasing : Method where
  name := "f"
  params := ["a", "c", "d", "e", "p"]
  returnsValue := false
  body :=
    let copy (target source : String) : Stmt := .assign target .assign (.var source)
    let spoil (target : String) : Stmt := .assign target .addAssign (.int 1)
    .mk [] [copy "e" "a", copy "d" "e", .whileLoop (.var "p") (.mk []
      [copy "c" "d", spoil "a", copy "e" "c", spoil "c", copy "c" "e", spoil "d",
        copy "a" "c", spoil "c", copy "c" "a", spoil "e", copy "d" "c", spoil "c"])]

/-- What the loop is lowered to. -/
def chasedCopies : Body := (Lowering.lowerMethod {} chasing).1

/-- If `d` is known to be a copy of `a` at the head of the loop, then the loop
    ends without that knowledge, and the other way round.  The entry always
    knows it, so the analysis goes on forever, though every block is reached. -/
theorem chasedCopies_unsettled : chasedCopies.AllReached ∧
    ∀ steps, propagateCopies steps chasedCopies = .error .unsettled := by
  refine ⟨Body.allReached_of_reachesAll (by decide +kernel), fun steps => ?_⟩
  obtain ⟨graph, hgraph, hreturns⟩ := @FlowGraph.exists_of_test chasedCopies
    (fun graph => Worklist.returns graph (analysis chasedCopies) 6 5) (by decide +kernel)
  rw [propagateCopies, hgraph]
  simp only [bind, Except.bind, unsettled_of_returns hreturns steps]

end Copies

end DecafBackend
