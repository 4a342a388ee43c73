import DecafBackend.Flow.Liveness
import DecafBackend.Proofs.Convergence
import DecafBackend.Proofs.Points

/-! # Live reads

    A read is live at a point if control can come from there to the read
    without a write of its location.  The analysis comes to an end for every
    well-formed body, and finds every live read of a variable or temporary of
    the method.

    * `Body.Spares`, `Body.Live` — ways without a write, and live reads
    * `LiveReads.stepBackward_spec` — from the end of a statement to its start
    * `Liveness.compute_ok` — the analysis comes to an end
    * `Liveness.Computed.mem_of_live` — every live read is found
    * `Liveness.Computed.reached_eq` — the reads that a definition reaches -/

namespace DecafBackend

namespace Body

variable {body : Body}

/-! ## Ways to a read -/

/-- The statement at a point writes a location. -/
def Writes (body : Body) (loc : Loc) (point : Point) : Prop :=
  ∃ stmt rest command, point.rest = stmt :: rest ∧ body.command? stmt = some command ∧
    command.dest? = some loc

/-- The statement at a point makes an access to read. -/
def ReadsBy (body : Body) (access : Access) (point : Point) : Prop :=
  ∃ stmt rest command, point.rest = stmt :: rest ∧ body.command? stmt = some command ∧
    access ∈ command.reads stmt

/-- Control can come from a point to another one without a write of a location. -/
inductive Spares (body : Body) (loc : Loc) : Point → Point → Prop
  /-- By staying where it is. -/
  | refl (point : Point) : Spares body loc point point
  /-- By a move over something else than a write. -/
  | step {point next last : Point} (hleads : body.Leads point next)
      (hwrites : ¬ body.Writes loc point) (h : Spares body loc next last) :
      Spares body loc point last

/-- The contents of a location at a point may still reach an access. -/
def Live (body : Body) (access : Access) (point : Point) : Prop :=
  ∃ last, body.Spares access.loc point last ∧ body.ReadsBy access last

/-- A read is live where it happens. -/
theorem Live.of_reads {access : Access} {point : Point} (h : body.ReadsBy access point) :
    body.Live access point := ⟨point, .refl point, h⟩

/-- What is live behind a statement is live in front of it, unless it is written. -/
theorem Live.back {access : Access} {point next : Point} (hleads : body.Leads point next)
    (hwrites : ¬ body.Writes access.loc point) (h : body.Live access next) :
    body.Live access point := by
  obtain ⟨last, hspares, hreads⟩ := h
  exact ⟨last, .step hleads hwrites hspares, hreads⟩

/-- A statement writes its destination only. -/
theorem not_writes_of_dest {loc : Loc} {point : Point} {stmt : Inst} {rest : List Inst}
    {command : Command} (hrest : point.rest = stmt :: rest)
    (hcommand : body.command? stmt = some command) (hdest : command.dest? ≠ some loc) :
    ¬ body.Writes loc point := by
  rintro ⟨stmt', rest', command', hrest', hcommand', hdest'⟩
  rw [hrest] at hrest'
  cases hrest'
  rw [hcommand] at hcommand'
  cases hcommand'
  exact hdest hdest'

/-- The end of a block writes nothing. -/
theorem not_writes_of_nil {loc : Loc} {point : Point} (hrest : point.rest = []) :
    ¬ body.Writes loc point := by
  rintro ⟨stmt, rest, command, hrest', -⟩
  rw [hrest] at hrest'
  cases hrest'

/-! ## Tracked locations -/

/-- Whether a location is a variable or temporary of the method. -/
def tracks (body : Body) (loc : Loc) : Bool :=
  body.locations[loc.index]?.any Location.isAllocatable

/-- The variable or temporary that a command writes. -/
def trackedDest? (body : Body) (command : Command) : Option Loc := command.dest?.filter body.tracks

/-- The reads of a statement. -/
def readsOf (body : Body) (stmt : Inst) : List Access :=
  match body.command? stmt with
  | some command => command.reads stmt
  | none => []

/-- The reads of all statements. -/
def allReads (body : Body) : List Access := body.stmts.flatMap body.readsOf

/-- Whether a location of the body is tracked. -/
theorem isTracked_eq {loc : Loc} (h : loc.index < body.locations.size) :
    body.isTracked loc = .ok (body.tracks loc) := by
  rw [isTracked, location_eq (Array.getElem?_eq_getElem h), tracks, Array.getElem?_eq_getElem h]
  rfl

/-- The reads of a statement are those of its command. -/
theorem readsOf_eq {stmt : Inst} {command : Command} (h : body.command? stmt = some command) :
    body.readsOf stmt = command.reads stmt := by
  rw [readsOf, h]

/-- A tracked destination is one that is written and tracked. -/
theorem trackedDest?_eq_some {command : Command} {loc : Loc} :
    body.trackedDest? command = some loc ↔ command.dest? = some loc ∧ body.tracks loc = true :=
  Option.filter_eq_some_iff

/-- The reads of the body are those of its statements. -/
theorem mem_allReads {stmt : Inst} {command : Command} (hstmt : stmt ∈ body.stmts)
    (hcommand : body.command? stmt = some command) {access : Access}
    (h : access ∈ command.reads stmt) : access ∈ body.allReads :=
  List.mem_flatMap.mpr ⟨stmt, hstmt, readsOf_eq hcommand ▸ h⟩

end Body

/-- Every statement of a well-formed body has its reads. -/
theorem WellFormed.mapM_reads {body : Body} (wf : WellFormed body) :
    body.stmts.mapM body.reads = .ok (body.stmts.map body.readsOf) := by
  refine Checked.mapM_eq fun stmt hstmt => ?_
  obtain ⟨command, hcommand, -⟩ := wf.commands stmt hstmt
  rw [Body.reads_eq hcommand, Body.readsOf_eq hcommand]

/-- The body has every location that is read. -/
theorem WellFormed.loc_of_mem_allReads {body : Body} (wf : WellFormed body) {access : Access}
    (h : access ∈ body.allReads) : access.loc.index < body.locations.size := by
  obtain ⟨stmt, hstmt, hread⟩ := List.mem_flatMap.mp h
  obtain ⟨command, hcommand, hvalid⟩ := wf.commands stmt hstmt
  exact hvalid.reads access (Body.readsOf_eq hcommand ▸ hread)

namespace LiveReads

/-! ## Moving back over statements -/

/-- A write kills the reads of its location. -/
theorem mem_kill {live : LiveReads} {loc : Loc} {access : Access} :
    access ∈ live.kill loc ↔ access ∈ live ∧ access.loc ≠ loc := by
  rw [kill, Std.ExtTreeSet.mem_filter]
  simp

/-- Reads become live. -/
theorem mem_add {live : LiveReads} {reads : List Access} {access : Access} :
    access ∈ live.add reads ↔ access ∈ live ∨ access ∈ reads := Maps.set_mem_foldl_insert

/-- The readers of a location. -/
theorem mem_readers {live : LiveReads} {loc : Loc} {inst : Inst} :
    inst ∈ live.readers loc ↔ ⟨inst, loc⟩ ∈ live := by
  rw [readers, List.mem_map]
  constructor
  · rintro ⟨access, hmem, rfl⟩
    rw [List.mem_filter, Std.ExtTreeSet.mem_toList, decide_eq_true_iff] at hmem
    obtain ⟨hmem, rfl⟩ := hmem
    exact hmem
  · intro h
    refine ⟨⟨inst, loc⟩, List.mem_filter.mpr ⟨Std.ExtTreeSet.mem_toList.mpr h, ?_⟩, rfl⟩
    exact decide_eq_true rfl

section

variable {body : Body} {stmt : Inst} {command : Command}
  (hcommand : body.command? stmt = some command) (hvalid : command.Valid body stmt)
include hcommand hvalid

/-- The tracked reads of a command. -/
theorem trackedReads_eq : trackedReads body stmt =
    .ok ((command.reads stmt).filter fun access => body.tracks access.loc) := by
  rw [trackedReads, Body.reads_eq hcommand]
  exact Checked.filterM_eq fun access haccess => Body.isTracked_eq (hvalid.reads access haccess)

/-- **ONE STATEMENT BACK**: the reads of a statement are live in front of it, and
    so is what is live behind it, unless the statement writes it. -/
theorem stepBackward_spec (live : LiveReads) : ∃ before,
    stepBackward body stmt live = .ok ((body.trackedDest? command).map live.readers, before) ∧
    ∀ access, access ∈ before ↔ (access ∈ command.reads stmt ∧ body.tracks access.loc = true) ∨
      (access ∈ live ∧ body.trackedDest? command ≠ some access.loc) := by
  obtain ⟨record, hrecord, hdest, -⟩ := Body.record_command hcommand
  have hreads : ∀ {access}, access ∈ (command.reads stmt).filter (fun access =>
      body.tracks access.loc) ↔ access ∈ command.reads stmt ∧ body.tracks access.loc = true :=
    List.mem_filter
  -- nothing is killed
  have hplain : body.trackedDest? command = none → ∀ access,
      access ∈ live.add ((command.reads stmt).filter fun access => body.tracks access.loc) ↔
        (access ∈ command.reads stmt ∧ body.tracks access.loc = true) ∨
          (access ∈ live ∧ body.trackedDest? command ≠ some access.loc) := by
    intro hnone access
    rw [mem_add, hreads, or_comm, hnone]
    exact or_congr Iff.rfl (and_iff_left (by simp)).symm
  rw [stepBackward, Body.record_eq hrecord]
  simp only [bind, Except.bind, hdest]
  cases hdest? : command.dest? with
  | none =>
      have hnone : body.trackedDest? command = none := by rw [Body.trackedDest?, hdest?]; rfl
      rw [trackedReads_eq hcommand hvalid]
      exact ⟨_, by rw [hnone]; rfl, hplain hnone⟩
  | some dest =>
      obtain ⟨location, hlocation, -⟩ := hvalid.dest dest hdest?
      have hlt : dest.index < body.locations.size := (Array.getElem?_eq_some_iff.mp hlocation).1
      simp only [Body.isTracked_eq hlt, trackedReads_eq hcommand hvalid]
      cases htracks : body.tracks dest with
      | false =>
          have hnone : body.trackedDest? command = none := by
            rw [Body.trackedDest?, hdest?, Option.filter_some, htracks]
            rfl
          exact ⟨_, by rw [hnone]; rfl, hplain hnone⟩
      | true =>
          have hsome : body.trackedDest? command = some dest :=
            Body.trackedDest?_eq_some.mpr ⟨hdest?, htracks⟩
          refine ⟨_, by rw [hsome]; rfl, fun access => ?_⟩
          rw [mem_add, hreads, or_comm, mem_kill, hsome]
          simp only [ne_eq, Option.some.injEq, eq_comm]

end

/-- Backwards over a list of statements, the first one comes last. -/
theorem stepsBackward_cons {body : Body} {stmt : Inst} {rest : List Inst} {live : LiveReads} :
    stepsBackward body (stmt :: rest) live =
      stepsBackward body rest live >>= fun behind =>
        Prod.snd <$> stepBackward body stmt behind := by
  rw [stepsBackward, List.reverse_cons, List.foldlM_append, stepsBackward]
  congr 1
  funext behind
  rw [List.foldlM_cons]
  cases stepBackward body stmt behind <;> rfl

/-- Reads of a body. -/
def Within (body : Body) (live : LiveReads) : Prop := ∀ access ∈ live, access ∈ body.allReads

section

variable {body : Body} (wf : WellFormed body)
include wf

/-- The steps backwards succeed and stay within the reads of the body. -/
theorem stepsBackward_ok {stmts : List Inst} (hstmts : ∀ stmt ∈ stmts, stmt ∈ body.stmts)
    {live : LiveReads} (hlive : Within body live) :
    ∃ before, stepsBackward body stmts live = .ok before ∧ Within body before := by
  induction stmts with
  | nil => exact ⟨live, rfl, hlive⟩
  | cons stmt rest ih =>
      obtain ⟨behind, hbehind, hwithin⟩ :=
        ih fun other hother => hstmts other (List.mem_cons_of_mem _ hother)
      have hstmt := hstmts stmt List.mem_cons_self
      obtain ⟨command, hcommand, hvalid⟩ := wf.commands stmt hstmt
      obtain ⟨before, hbefore, hmem⟩ := stepBackward_spec hcommand hvalid behind
      refine ⟨before, ?_, fun access haccess => ?_⟩
      · rw [stepsBackward_cons, hbehind]
        simp only [bind, Except.bind, hbefore]
        rfl
      · rcases (hmem access).mp haccess with ⟨hread, -⟩ | ⟨hold, -⟩
        · exact Body.mem_allReads hstmt hcommand hread
        · exact hwithin access hold

/-- More live reads at the end make more at the start. -/
theorem stepsBackward_mono {stmts : List Inst} (hstmts : ∀ stmt ∈ stmts, stmt ∈ body.stmts)
    {live live' before before' : LiveReads} (hsub : ∀ access ∈ live, access ∈ live')
    (h : stepsBackward body stmts live = .ok before)
    (h' : stepsBackward body stmts live' = .ok before') :
    ∀ access ∈ before, access ∈ before' := by
  induction stmts generalizing before before' with
  | nil =>
      cases h
      cases h'
      exact hsub
  | cons stmt rest ih =>
      rw [stepsBackward_cons] at h h'
      obtain ⟨behind, hbehind, h⟩ := Checked.bind_eq_ok h
      obtain ⟨behind', hbehind', h'⟩ := Checked.bind_eq_ok h'
      have hrest := ih (fun other hother => hstmts other (List.mem_cons_of_mem _ hother))
        hbehind hbehind'
      obtain ⟨command, hcommand, hvalid⟩ := wf.commands stmt (hstmts stmt List.mem_cons_self)
      obtain ⟨found, hfound, hmem⟩ := stepBackward_spec hcommand hvalid behind
      obtain ⟨found', hfound', hmem'⟩ := stepBackward_spec hcommand hvalid behind'
      rw [hfound] at h
      rw [hfound'] at h'
      cases h
      cases h'
      intro access haccess
      rw [hmem']
      rcases (hmem access).mp haccess with hread | ⟨hold, hkept⟩
      · exact Or.inl hread
      · exact Or.inr ⟨hrest access hold, hkept⟩

/-! ## The analysis comes to an end -/

/-- Whether an access does not count as live. -/
def spares (access : Access) (live : LiveReads) : Bool := !live.contains access

omit wf in
/-- A read is spared where it is not live. -/
theorem spares_iff {access : Access} {live : LiveReads} :
    spares access live = true ↔ access ∉ live := by
  rw [spares, Bool.not_eq_true', Std.ExtTreeSet.mem_iff_contains, Bool.not_eq_true]

omit wf in
/-- Fewer live reads lose nothing. -/
theorem loses_iff {live live' : LiveReads} :
    Loses spares live live' ↔ ∀ access ∈ live, access ∈ live' := by
  simp only [Loses, spares_iff]
  exact forall_congr' fun access => not_imp_not

/-- Live reads only become more. -/
theorem descends {graph : FlowGraph} :
    (analysis body).Descends graph (Within body) spares body.allReads where
  initial _ h := absurd h Std.ExtTreeSet.not_mem_empty
  bottom _ h := absurd h Std.ExtTreeSet.not_mem_empty
  join ha hb access h := (Std.ExtTreeSet.mem_union_iff.mp h).elim (ha access) (hb access)
  holds_join _ _ access := by
    rw [spares_iff, spares_iff, spares_iff, ← not_or]
    exact not_congr Std.ExtTreeSet.mem_union_iff
  ext {a b} ha hb hsame := by
    have hagree : ∀ access ∈ body.allReads, (access ∈ a ↔ access ∈ b) := by
      intro access haccess
      rw [← not_iff_not, ← spares_iff, ← spares_iff, hsame access haccess]
    refine Std.ExtTreeSet.ext_mem fun access => ?_
    exact ⟨fun h => (hagree access (ha access h)).mp h,
      fun h => (hagree access (hb access h)).mpr h⟩
  transfer _ h := stepsBackward_ok wf (fun _ => Body.mem_stmts_of_stmtsOf) h
  mono _ _ _ hloses htransfer htransfer' := loses_iff.mpr (stepsBackward_mono wf
    (fun _ => Body.mem_stmts_of_stmtsOf) (loses_iff.mp hloses) htransfer htransfer')

/-- The bound on the steps of the analysis. -/
theorem stepBound_eq (graph : FlowGraph) : Liveness.stepBound body graph =
    .ok (graph.blocks.length + graph.blocks.length * graph.blocks.length *
      (body.allReads.length + 2)) := by
  rw [Liveness.stepBound, wf.mapM_reads, Body.allReads, List.flatMap_def]
  rfl

/-- Liveness settles within its bound: a block that nothing flows into starts
    without live reads, as every block does. -/
theorem solve_ok {graph : FlowGraph} (hflow : graph.Of body) : ∃ steps solution,
    Liveness.stepBound body graph = .ok steps ∧
      solve steps graph (analysis body) = .ok solution := by
  have hbound : graph.blocks.length + graph.blocks.length * (graph.blocks.length *
      (body.allReads.length + 1)) ≤ graph.blocks.length + graph.blocks.length *
        graph.blocks.length * (body.allReads.length + 2) := by
    rw [Nat.mul_assoc]
    exact Nat.add_le_add_left (Nat.mul_le_mul_left _ (Nat.mul_le_mul_left _ (by omega))) _
  obtain ⟨solution, hsolve⟩ := solve_of_descends (descends wf) (wf.closed hflow)
    (Or.inr fun access => spares_iff.mpr Std.ExtTreeSet.not_mem_empty) hbound
  exact ⟨_, solution, stepBound_eq wf graph, hsolve⟩

end

/-! ## What is live at a point -/

/-- What a solution says of a point. -/
def Ahead (body : Body) (solution : Solution LiveReads) (point : Point) (live : LiveReads) : Prop :=
  ∃ output, solution.inputs[point.block]? = some output ∧
    stepsBackward body point.rest output = .ok live

/-- What is live in front of a point is unique. -/
theorem Ahead.unique {body : Body} {solution : Solution LiveReads} {point : Point}
    {live live' : LiveReads} (h : Ahead body solution point live)
    (h' : Ahead body solution point live') : live = live' := by
  obtain ⟨output, houtput, hsteps⟩ := h
  obtain ⟨output', houtput', hsteps'⟩ := h'
  rw [houtput] at houtput'
  cases houtput'
  exact Except.ok.inj (hsteps.symm.trans hsteps')

/-- Moving back over the statement at a point. -/
theorem Ahead.behind {body : Body} {solution : Solution LiveReads} {block : Block} {stmt : Inst}
    {rest : List Inst} {live : LiveReads} (h : Ahead body solution ⟨block, stmt :: rest⟩ live) :
    ∃ behind, Ahead body solution ⟨block, rest⟩ behind ∧
      Prod.snd <$> stepBackward body stmt behind = .ok live := by
  obtain ⟨output, houtput, hsteps⟩ := h
  rw [stepsBackward_cons] at hsteps
  obtain ⟨behind, hbehind, hstep⟩ := Checked.bind_eq_ok hsteps
  exact ⟨behind, ⟨output, houtput, hbehind⟩, hstep⟩

section

variable {body : Body} (wf : WellFormed body) {graph : FlowGraph} (hflow : graph.Of body)
  {solution : Solution LiveReads}
  (hsettled : ∀ {block : Block}, block ∈ graph.blocks →
    Settled graph (analysis body) solution block)
include wf hflow hsettled

/-- What is live at the start of a block is live at the end of every block that
    leads to it. -/
theorem mem_along {block target : Block} (hlt : block.index < body.blocks.size)
    (htarget : target ∈ graph.successors block) {live behind : LiveReads}
    (hahead : Ahead body solution (body.startOf target) live)
    (hbehind : Ahead body solution ⟨block, []⟩ behind) : ∀ access ∈ live, access ∈ behind := by
  intro access haccess
  have hkey : ∀ {block : Block}, block.index < body.blocks.size → block ∈ graph.blocks :=
    fun hlt => hflow.blocks ▸ Body.mem_blockKeys.mpr hlt
  have htargetLt := wf.lt_of_mem_successors (hflow.successors hlt) htarget
  obtain ⟨output, hinput, htransfer, houtput⟩ := hsettled (hkey htargetLt)
  obtain ⟨output', hinput', htransfer'⟩ := hahead
  obtain rfl : live = output := by
    rw [show (body.startOf target).block = target from rfl, hinput] at hinput'
    cases hinput'
    exact Except.ok.inj (htransfer'.symm.trans htransfer)
  obtain ⟨-, hjoined, -⟩ := hsettled (hkey hlt)
  obtain ⟨joined, hjoined', hsteps⟩ := hbehind
  rw [show (⟨block, []⟩ : Point).block = block from rfl, hjoined] at hjoined'
  cases hjoined'
  cases hsteps
  -- the output of the target enters the join
  refine @Analysis.joinInputs_of_mem _ (analysis body) graph solution (fun _ => True)
    (fun state => access ∈ state) block live (fun _ _ => trivial) (fun _ _ _ _ => trivial)
    ?_ ?_ ?_ haccess
  · exact fun _ _ _ _ h => Std.ExtTreeSet.mem_union_iff.mpr (Or.inl h)
  · exact fun _ _ _ _ h => Std.ExtTreeSet.mem_union_iff.mpr (Or.inr h)
  · exact List.mem_append_right _ (List.mem_filterMap.mpr ⟨target, htarget, houtput⟩)

/-- There is something to say of every point. -/
theorem ahead_ok (hwithin : Worklist.Satisfies (Within body) solution) {block : Block}
    {rest : List Inst} (hat : body.At block rest) :
    ∃ live, Ahead body solution ⟨block, rest⟩ live := by
  obtain ⟨output, hinput, -⟩ := hsettled (hflow.blocks ▸ Body.mem_blockKeys.mpr hat.block_lt)
  obtain ⟨before, hsplit, -⟩ := hat.reached
  have hstmts : ∀ stmt ∈ rest, stmt ∈ body.stmts := fun stmt hstmt =>
    Body.mem_stmts_of_stmtsOf (hsplit ▸ List.mem_append_right _ hstmt)
  obtain ⟨live, hlive, -⟩ := stepsBackward_ok wf hstmts (hwithin.1 hinput)
  exact ⟨live, _, hinput, hlive⟩

variable (hwithin : Worklist.Satisfies (Within body) solution)
include hwithin

/-- **EVERY LIVE READ IS FOUND**. -/
theorem mem_of_live {access : Access} (htracks : body.tracks access.loc = true) {point : Point}
    (hat : body.At point.block point.rest) (hlive : body.Live access point) {live : LiveReads}
    (hahead : Ahead body solution point live) : access ∈ live := by
  obtain ⟨last, hspares, hreads⟩ := hlive
  -- by induction on the way to the read
  induction hspares generalizing live with
  | refl point =>
      obtain ⟨block, points⟩ := point
      obtain ⟨stmt, rest, command, hrest, hcommand, hread⟩ := hreads
      dsimp only at hrest
      subst hrest
      have hvalid := wf.valid (Body.mem_stmts_of_stmtsOf hat.mem) hcommand
      obtain ⟨behind, -, hstep⟩ := hahead.behind
      obtain ⟨before, hbefore, hmem⟩ := stepBackward_spec hcommand hvalid behind
      rw [hbefore] at hstep
      cases hstep
      exact (hmem access).mpr (Or.inl ⟨hread, htracks⟩)
  | @step point next last hleads hwrites _ ih =>
      have hatNext := wf.at_leads hat hleads
      obtain ⟨next', hnext⟩ := ahead_ok wf hflow hsettled hwithin hatNext
      have hmemNext : access ∈ next' := ih hatNext hnext hreads
      -- the statement in front of what is live does not write it
      have hover : ∀ {stmt rest behind}, point.rest = stmt :: rest →
          Ahead body solution ⟨point.block, rest⟩ behind → access ∈ behind → access ∈ live := by
        intro stmt rest behind hrest hbehind hmem
        obtain ⟨command, hcommand, hvalid⟩ :=
          wf.commands_of_at hat stmt (hrest ▸ List.mem_cons_self)
        have hahead' : Ahead body solution ⟨point.block, stmt :: rest⟩ live := hrest ▸ hahead
        obtain ⟨behind', hbehind', hstep⟩ := hahead'.behind
        obtain rfl := hbehind.unique hbehind'
        obtain ⟨before, hbefore, hiff⟩ := stepBackward_spec hcommand hvalid behind
        rw [hbefore] at hstep
        cases hstep
        refine (hiff access).mpr (Or.inr ⟨hmem, fun hdest => hwrites ?_⟩)
        exact ⟨stmt, rest, command, hrest, hcommand, (Body.trackedDest?_eq_some.mp hdest).1⟩
      rcases wf.leads_cases hflow hat hleads with ⟨hblock, stmt, hrest⟩ | ⟨hstart, htarget, hend⟩
      · exact hover hrest (hblock ▸ hnext) hmemNext
      · -- the inputs of the block are joined, and a join keeps every read
        rw [hstart] at hnext
        obtain ⟨atEnd, hatEnd⟩ : ∃ atEnd, Ahead body solution ⟨point.block, []⟩ atEnd := by
          obtain ⟨-, hinput, -⟩ := hsettled (hflow.blocks ▸ Body.mem_blockKeys.mpr hat.block_lt)
          exact ⟨_, _, hinput, rfl⟩
        have hmemEnd :=
          mem_along wf hflow hsettled hat.block_lt htarget hnext hatEnd access hmemNext
        rcases hend with hnil | ⟨stmt, command, label, hrest, -⟩
        · have hahead' : Ahead body solution ⟨point.block, []⟩ live := hnil ▸ hahead
          exact hahead'.unique hatEnd ▸ hmemEnd
        · exact hover hrest hatEnd hmemEnd

end

end LiveReads

namespace Liveness

/-! ## What definitions reach -/

/-- The reads that the definitions of a run of statements reach, if `live` is
    live behind it. -/
def Noted (body : Body) (reached : Std.ExtTreeMap Inst (List Inst)) (live : LiveReads)
    (stmts : List Inst) : Prop :=
  ∀ {before stmt rest command behind}, stmts = before ++ stmt :: rest →
    body.command? stmt = some command → LiveReads.stepsBackward body rest live = .ok behind →
    reached[stmt]? = (body.trackedDest? command).map behind.readers

/-- One statement more. -/
def collectStep (body : Body) (state : Std.ExtTreeMap Inst (List Inst) × LiveReads) (stmt : Inst) :
    Checked (Std.ExtTreeMap Inst (List Inst) × LiveReads) := do
  let (readers, live) ← LiveReads.stepBackward body stmt state.2
  match readers with
  | some readers => return (state.1.insert stmt readers, live)
  | none => return (state.1, live)

/-- What is noted when the statements are walked over backwards. -/
theorem collectReached_eq (body : Body) (reached : Std.ExtTreeMap Inst (List Inst))
    (live : LiveReads) (stmts : List Inst) : collectReached body reached live stmts =
      Prod.fst <$> stmts.reverse.foldlM (collectStep body) (reached, live) := by
  rw [collectReached]
  rfl

section

variable {body : Body} (wf : WellFormed body)
include wf

/-- What the definitions of a run of statements reach is noted, and nothing else. -/
theorem collect_spec {stmts : List Inst} (hstmts : ∀ stmt ∈ stmts, stmt ∈ body.stmts)
    (hnodup : stmts.Nodup) {reached : Std.ExtTreeMap Inst (List Inst)}
    (hfresh : ∀ stmt ∈ stmts, reached[stmt]? = none) (live : LiveReads) : ∃ noted before,
      stmts.reverse.foldlM (collectStep body) (reached, live) = .ok (noted, before) ∧
      LiveReads.stepsBackward body stmts live = .ok before ∧
      (∀ inst, inst ∉ stmts → noted[inst]? = reached[inst]?) ∧ Noted body noted live stmts := by
  -- by induction from the end of the statements, where the walk begins
  induction stmts with
  | nil =>
      refine ⟨reached, live, rfl, rfl, fun _ _ => rfl, ?_⟩
      intro before stmt rest command behind hsplit
      cases before <;> cases hsplit
  | cons first tail ih =>
      obtain ⟨hfirst, hnodup⟩ := List.nodup_cons.mp hnodup
      obtain ⟨noted, behind, hcollect, hsteps, hother, hnoted⟩ :=
        ih (fun stmt hstmt => hstmts stmt (List.mem_cons_of_mem _ hstmt)) hnodup
          (fun stmt hstmt => hfresh stmt (List.mem_cons_of_mem _ hstmt))
      obtain ⟨command, hcommand, hvalid⟩ := wf.commands first (hstmts first List.mem_cons_self)
      obtain ⟨before, hbefore, -⟩ := LiveReads.stepBackward_spec hcommand hvalid behind
      have hnone : noted[first]? = none := by
        rw [hother first hfirst]
        exact hfresh first List.mem_cons_self
      -- only the first statement is noted in addition
      obtain ⟨all, hall, hallFirst, hallOther⟩ : ∃ all,
          collectStep body (noted, behind) first = .ok (all, before) ∧
          all[first]? = (body.trackedDest? command).map behind.readers ∧
          ∀ inst, inst ≠ first → all[inst]? = noted[inst]? := by
        rw [collectStep, hbefore]
        cases body.trackedDest? command with
        | none => exact ⟨noted, rfl, hnone, fun _ _ => rfl⟩
        | some dest =>
            exact ⟨_, rfl, Std.ExtTreeMap.getElem?_insert_self,
              fun inst hne => Maps.getElem?_insert_ne hne⟩
      refine ⟨all, before, ?_, ?_, fun inst hinst => ?_, ?_⟩
      · rw [List.reverse_cons, List.foldlM_append, hcollect]
        simp only [bind, Except.bind, List.foldlM_cons, hall]
        rfl
      · rw [LiveReads.stepsBackward_cons, hsteps]
        simp only [bind, Except.bind, hbefore]
        rfl
      · rw [hallOther inst (fun heq => hinst (heq ▸ List.mem_cons_self)),
          hother inst (fun hmem => hinst (List.mem_cons_of_mem _ hmem))]
      · intro front stmt rest command' behind' hsplit hcommand' hbehind'
        cases front with
        | nil =>
            cases hsplit
            rw [hcommand] at hcommand'
            cases hcommand'
            rw [hsteps] at hbehind'
            cases hbehind'
            exact hallFirst
        | cons other front =>
            injection hsplit with _ hsplit
            have hmem : stmt ∈ tail := hsplit ▸ List.mem_append_right _ List.mem_cons_self
            rw [hallOther stmt (fun heq => hfirst (heq ▸ hmem))]
            exact hnoted hsplit hcommand' hbehind'

/-- One block more. -/
def collectBlock (body : Body) (solution : Solution LiveReads)
    (reached : Std.ExtTreeMap Inst (List Inst)) (block : Block) :
    Checked (Std.ExtTreeMap Inst (List Inst)) := do
  collectReached body reached (← solution.input block) (body.stmtsOf block)

/-- What the definitions of some blocks reach is noted, and nothing else. -/
theorem collectBlocks_spec {solution : Solution LiveReads} {blocks : List Block}
    (hinputs : ∀ block ∈ blocks, ∃ live, solution.inputs[block]? = some live)
    (hnodup : blocks.Nodup) {reached : Std.ExtTreeMap Inst (List Inst)}
    (hfresh : ∀ block ∈ blocks, ∀ stmt ∈ body.stmtsOf block, reached[stmt]? = none) :
    ∃ noted, blocks.foldlM (collectBlock body solution) reached = .ok noted ∧
      (∀ inst, (∀ block ∈ blocks, inst ∉ body.stmtsOf block) → noted[inst]? = reached[inst]?) ∧
      ∀ block ∈ blocks, ∀ live, solution.inputs[block]? = some live →
        Noted body noted live (body.stmtsOf block) := by
  -- block by block, each on top of what the blocks before it noted
  induction blocks generalizing reached with
  | nil => exact ⟨reached, rfl, fun _ _ => rfl, fun _ h => by cases h⟩
  | cons first tail ih =>
      obtain ⟨hfirst, hnodup⟩ := List.nodup_cons.mp hnodup
      obtain ⟨live, hinput⟩ := hinputs first List.mem_cons_self
      obtain ⟨here, before, hcollect, -, hother, hnoted⟩ := collect_spec wf
        (fun _ => Body.mem_stmts_of_stmtsOf) (wf.stmtsOf_nodup first)
        (hfresh first List.mem_cons_self) live
      have hstep : collectBlock body solution reached first = .ok here := by
        rw [collectBlock, Solution.input, hinput]
        simp only [bind, Except.bind, collectReached_eq, hcollect]
        rfl
      -- a statement stands in one block only
      have hapart : ∀ block ∈ tail, ∀ stmt ∈ body.stmtsOf block, stmt ∉ body.stmtsOf first := by
        intro block hblock stmt hstmt hmem
        exact hfirst (wf.block_unique hstmt hmem ▸ hblock)
      obtain ⟨noted, hrest, hkept, hall⟩ := ih
        (fun block hblock => hinputs block (List.mem_cons_of_mem _ hblock)) hnodup
        (fun block hblock stmt hstmt => by
          rw [hother stmt (hapart block hblock stmt hstmt)]
          exact hfresh block (List.mem_cons_of_mem _ hblock) stmt hstmt)
      refine ⟨noted, ?_, fun inst hinst => ?_, fun block hblock live' hinput' => ?_⟩
      · rw [List.foldlM_cons, hstep]
        exact hrest
      · rw [hkept inst fun block hblock => hinst block (List.mem_cons_of_mem _ hblock),
          hother inst (hinst first List.mem_cons_self)]
      · rcases List.mem_cons.mp hblock with rfl | hblock
        · rw [hinput] at hinput'
          cases hinput'
          intro front stmt rest command behind hsplit hcommand hbehind
          have hmem : stmt ∈ body.stmtsOf block :=
            hsplit ▸ List.mem_append_right _ List.mem_cons_self
          rw [hkept stmt fun other hother hmem' => hapart other hother stmt hmem' hmem]
          exact hnoted hsplit hcommand hbehind
        · exact hall block hblock live' hinput'

end

/-- Live reads and definitions as the analysis finds them. -/
structure Computed (body : Body) (graph : FlowGraph) (liveness : Liveness) : Prop where
  flow : graph.Of body
  settled : ∀ {block : Block}, block ∈ graph.blocks →
    Settled graph (LiveReads.analysis body) liveness.solution block
  within : Worklist.Satisfies (LiveReads.Within body) liveness.solution
  noted : ∀ block ∈ body.blockKeys, ∀ live, liveness.solution.inputs[block]? = some live →
    Noted body liveness.reached live (body.stmtsOf block)
  keys : ∀ {inst : Inst}, inst ∈ liveness.reached → inst ∈ body.stmts

/-- **LIVENESS IS ALWAYS COMPUTED** for a well-formed body. -/
theorem compute_ok {body : Body} (wf : WellFormed body) {graph : FlowGraph}
    (hflow : graph.Of body) :
    ∃ liveness, compute body graph = .ok liveness ∧ Computed body graph liveness := by
  obtain ⟨steps, solution, hsteps, hsolve⟩ := LiveReads.solve_ok wf hflow
  have hsettled : ∀ {block : Block}, block ∈ graph.blocks →
      Settled graph (LiveReads.analysis body) solution block :=
    fun hblock => settled_of_solve hsolve hblock
  have hwithin : Worklist.Satisfies (LiveReads.Within body) solution := by
    have hdescends := @LiveReads.descends body wf graph
    refine solve_invariant hsolve hdescends.initial hdescends.bottom
      (fun _ _ ha hb => hdescends.join ha hb) fun block input output hinput houtput => ?_
    obtain ⟨output', houtput', hgood⟩ := LiveReads.stepsBackward_ok wf
      (fun _ => @Body.mem_stmts_of_stmtsOf body block _) hinput
    exact Except.ok.inj (houtput.symm.trans houtput') ▸ hgood
  -- every block has an input, since the solution is settled
  have hinputs : ∀ block ∈ body.blockKeys, ∃ live, solution.inputs[block]? = some live := by
    intro block hblock
    obtain ⟨-, hinput, -⟩ := hsettled (hflow.blocks ▸ hblock)
    exact ⟨_, hinput⟩
  obtain ⟨reached, hcollect, hkept, hnoted⟩ := collectBlocks_spec wf hinputs
    body.nodup_blockKeys (fun _ _ stmt _ => Std.ExtTreeMap.getElem?_empty)
  refine ⟨⟨solution, reached⟩, ?_, hflow, hsettled, hwithin, hnoted, fun {inst} hinst => ?_⟩
  · rw [compute, hsteps]
    show (solve steps graph (LiveReads.analysis body) >>= fun solution =>
      body.blockKeys.foldlM (collectBlock body solution) ∅ >>= fun reached =>
        pure (Liveness.mk solution reached)) = _
    rw [hsolve]
    show (body.blockKeys.foldlM (collectBlock body solution) ∅ >>= fun reached =>
      pure (Liveness.mk solution reached)) = _
    rw [hcollect]
    rfl
  · -- what stands in no block is not noted
    refine Classical.byContradiction fun hnot => ?_
    obtain ⟨readers, hreaders⟩ := Maps.mem_iff.mp hinst
    rw [hkept inst fun block _ hmem => hnot (Body.mem_stmts_of_stmtsOf hmem)] at hreaders
    cases hreaders

namespace Computed

variable {body : Body} (wf : WellFormed body) {graph : FlowGraph} {liveness : Liveness}
  (h : Computed body graph liveness)
include wf h

/-- Something is live in front of every point of control. -/
theorem ahead_ok {block : Block} {rest : List Inst} (hat : body.At block rest) :
    ∃ live, LiveReads.Ahead body liveness.solution ⟨block, rest⟩ live :=
  LiveReads.ahead_ok wf h.flow h.settled h.within hat

/-- A definition of a tracked location reaches what is found to be live behind it. -/
theorem reached_eq {block : Block} {before rest : List Inst} {stmt : Inst} {command : Command}
    {live : LiveReads} (hsplit : body.stmtsOf block = before ++ stmt :: rest)
    (hcommand : body.command? stmt = some command)
    (hahead : LiveReads.Ahead body liveness.solution ⟨block, rest⟩ live) :
    liveness.reached[stmt]? = (body.trackedDest? command).map live.readers := by
  obtain ⟨output, houtput, hsteps⟩ := hahead
  have hstmt : stmt ∈ body.stmtsOf block := hsplit ▸ List.mem_append_right before List.mem_cons_self
  obtain ⟨block', hlt, hmem⟩ := Body.mem_stmts.mp (Body.mem_stmts_of_stmtsOf hstmt)
  obtain rfl := wf.block_unique hstmt hmem
  exact h.noted block (Body.mem_blockKeys.mpr hlt) output houtput hsplit hcommand hsteps

/-- Only definitions of tracked locations reach reads, and they are reads of the body. -/
theorem reached_ok {stmt : Inst} {command : Command} (hstmt : stmt ∈ body.stmts)
    (hcommand : body.command? stmt = some command) : ∃ live : LiveReads,
      liveness.reached[stmt]? = (body.trackedDest? command).map live.readers ∧
        LiveReads.Within body live := by
  obtain ⟨block, hlt, hmem⟩ := Body.mem_stmts.mp hstmt
  obtain ⟨before, rest, hsplit⟩ := List.append_of_mem hmem
  have hinput : ∃ live, liveness.solution.inputs[block]? = some live := by
    obtain ⟨-, hinput, -⟩ := h.settled (h.flow.blocks ▸ Body.mem_blockKeys.mpr hlt)
    exact ⟨_, hinput⟩
  obtain ⟨output, houtput⟩ := hinput
  have hrest : ∀ other ∈ rest, other ∈ body.stmts := fun other hother =>
    Body.mem_stmts_of_stmtsOf (hsplit ▸ List.mem_append_right _ (List.mem_cons_of_mem _ hother))
  obtain ⟨live, hlive, hwithin⟩ := LiveReads.stepsBackward_ok wf hrest (h.within.1 houtput)
  exact ⟨live, h.reached_eq wf hsplit hcommand ⟨output, houtput, hlive⟩, hwithin⟩

/-- A definition reaches every read that is live behind it. -/
theorem mem_reachedBy {block : Block} {rest : List Inst} {stmt : Inst} {command : Command}
    {access : Access} (hat : body.At block (stmt :: rest))
    (hcommand : body.command? stmt = some command)
    (hdest : body.trackedDest? command = some access.loc)
    (hlive : body.Live access ⟨block, rest⟩) : access.inst ∈ liveness.reachedBy stmt := by
  have hfalls : command.isTerminator = false := by
    obtain ⟨value, rfl⟩ := Command.eq_save (Body.trackedDest?_eq_some.mp hdest).1
    rfl
  have hatRest := hat.next hcommand hfalls
  obtain ⟨live, hahead⟩ := h.ahead_ok wf hatRest
  obtain ⟨before, hsplit, -⟩ := hat.reached
  rw [reachedBy, h.reached_eq wf hsplit hcommand hahead, hdest]
  refine LiveReads.mem_readers.mpr ?_
  exact LiveReads.mem_of_live wf h.flow h.settled h.within
    (Body.trackedDest?_eq_some.mp hdest).2 hatRest hlive hahead

/-- What a dead definition writes is not live behind it. -/
theorem not_live_of_isDead {block : Block} {rest : List Inst} {stmt : Inst} {command : Command}
    (hat : body.At block (stmt :: rest)) (hcommand : body.command? stmt = some command)
    (hdead : liveness.isDead stmt = true) : ∃ dest, body.trackedDest? command = some dest ∧
      ∀ access, access.loc = dest → ¬ body.Live access ⟨block, rest⟩ := by
  have hreached : liveness.reached[stmt]? = some [] := beq_iff_eq.mp hdead
  cases hdest : body.trackedDest? command with
  | some dest =>
      refine ⟨dest, rfl, ?_⟩
      rintro access rfl hlive
      have hmem := h.mem_reachedBy wf hat hcommand hdest hlive
      rw [reachedBy, hreached] at hmem
      cases hmem
  | none =>
      -- other statements are no definitions
      obtain ⟨live, hahead⟩ := h.ahead_ok wf hat
      obtain ⟨behind, hbehind, -⟩ := hahead.behind
      obtain ⟨before, hsplit, -⟩ := hat.reached
      rw [h.reached_eq wf hsplit hcommand hbehind, hdest] at hreached
      cases hreached

end Computed

end Liveness

end DecafBackend
