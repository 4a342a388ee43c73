import DecafBackend.Proofs.CopiesRedirects

/-! # Copies are propagated soundly

    Wherever control comes to, a location that is recorded as a copy has the
    contents of what it was copied from.  So a load reads the same after it was
    redirected, and the changed body runs exactly as before.

    * `Sound`, `Sound.step` — copies have the same contents
    * `Known`, `Known.next` — what is known is carried along a run
    * `Propagated`, `Propagated.run_eq` — the runs of the two bodies
    * `propagateCopies_same_runs` — copies are propagated soundly -/

namespace DecafBackend

namespace Copies

/-! ## Copies along a run -/

/-- Copies have the contents of what they were copied from. -/
def Sound (setting : Setting) (body : Body) (store : Store) (copies : Copies) : Prop :=
  ∀ dest src, copies.Has dest src → body.read setting store dest = body.read setting store src

section

variable {setting : Setting} {body : Body} {store store' : Store} {copies : Copies}

/-- To read a location through its copy is to read what it holds. -/
theorem Sound.through (h : Sound setting body store copies) (loc : Loc) :
    body.read setting store (copies.through loc) = body.read setting store loc := by
  rw [Copies.through]
  cases hsource : copies.source? loc with
  | none => rfl
  | some src => exact (h loc src hsource).symm

/-- Fields are not tracked. -/
theorem isGlobal_of_isTracked {loc : Loc} (h : body.isTracked loc = .ok true) :
    body.isGlobal loc = .ok false := by
  rw [Body.isTracked] at h
  obtain ⟨location, hlocation, h⟩ := Checked.bind_eq_ok h
  rw [Body.isGlobal, hlocation]
  cases location with
  | localVar | temp => rfl
  | global | constant | literal => cases h

/-- **COPIES STAY COPIES**: what is known behind a statement holds there. -/
theorem Sound.step (wf : WellFormed body) (hfields : setting.Separates body)
    (hbound : Bound body copies) {stmt : Inst} {command : Command}
    (hcommand : body.command? stmt = some command) (hvalid : command.Valid body stmt)
    (hchanges : Body.Changes setting body store command store')
    (h : Sound setting body store copies) {next : Copies}
    (hstep : Copies.step body copies stmt = .ok next) : Sound setting body store' next := by
  obtain ⟨next', hstep', hhas⟩ := step_spec hbound hcommand hvalid
  rw [hstep] at hstep'
  cases hstep'
  intro dest src hnext
  rcases (hhas dest src).mp hnext with ⟨loaded, rfl, rfl, hrecordable⟩ | ⟨hold, hspares⟩
  · -- the save makes the copy
    obtain ⟨-, hne⟩ := of_isRecordable hrecordable
    cases hchanges with
    | idle hdest => cases hdest
    | save hvalue hwrite =>
        simp only [Body.evaluateValue] at hvalue
        split at hvalue
        · next word hread =>
            cases hvalue
            rw [Body.read_write_same hwrite, Body.read_write_other wf hfields hwrite hne]
            exact hread.symm.trans (h.through loaded.loc).symm
        · cases hvalue
  -- a copy that is kept is one whose two locations the statement leaves alone
  · have hlocal := isGlobal_of_isTracked (hbound.dest hold)
    cases hchanges with
    | idle => exact h dest src hold
    | call target args isExternal saved globals =>
        rw [Body.read_globals hlocal, Body.read_globals (hspares.called rfl)]
        exact h dest src hold
    | @save value saved calls reached _ hvalue hwrite =>
        have hdest : dest ≠ saved := fun heq => hspares.dest (congrArg some heq.symm)
        have hsrc : src ≠ saved := fun heq => hspares.src (congrArg some heq.symm)
        rw [Body.read_write_other wf hfields hwrite hdest,
          Body.read_write_other wf hfields hwrite hsrc]
        obtain ⟨globals, hreached, hcall⟩ := Body.evaluateValue_reached hvalue
        rw [hreached, Body.read_globals hlocal]
        cases hnone : value.callInst? with
        | none =>
            rw [hcall hnone]
            exact h dest src hold
        | some call =>
            rw [Body.read_globals (hspares.called (by rw [Command.callInst?, hnone]; rfl))]
            exact h dest src hold

/-- What is known of the contents at a point of a run. -/
def Known (setting : Setting) (body : Body) (solution : Solution Copies) (point : Point)
    (store : Store) : Prop :=
  ∃ copies, Ahead body solution point copies ∧ Bound body copies ∧ Sound setting body store copies

section

variable {graph : FlowGraph} {solution : Solution Copies}

/-- What is known is carried over a statement. -/
theorem Known.behind (wf : WellFormed body) (hfields : setting.Separates body) {block : Block}
    {stmt : Inst} {rest : List Inst} {command : Command}
    (h : Known setting body solution ⟨block, stmt :: rest⟩ store)
    (hcommand : body.command? stmt = some command) (hvalid : command.Valid body stmt)
    (hchanges : Body.Changes setting body store command store') :
    Known setting body solution ⟨block, rest⟩ store' := by
  obtain ⟨copies, ⟨before, input, hsplit, hinput, hsteps⟩, hbound, hsound⟩ := h
  obtain ⟨next, hstep, -⟩ := step_spec hbound hcommand hvalid
  have hsplit' : body.stmtsOf block = (before ++ [stmt]) ++ rest := by
    rw [List.append_assoc]
    exact hsplit
  refine ⟨next, ⟨before ++ [stmt], input, hsplit', hinput, ?_⟩, hbound.step hcommand hvalid hstep,
    hsound.step wf hfields hbound hcommand hvalid hchanges hstep⟩
  rw [List.foldlM_append, hsteps]
  simp only [bind, Except.bind, List.foldlM_cons, hstep]
  rfl

variable (hflow : graph.Of body)
  (hsettled : ∀ {block : Block}, block ∈ graph.blocks →
    Settled graph (analysis body) solution block)
include hflow hsettled

/-- At the start of a block, less is known than on every way into it. -/
theorem ahead_startOf (hbound : Worklist.Satisfies (Bound body) solution) {block : Block}
    (hlt : block.index < body.blocks.size) {path : Copies}
    (hpath : path ∈ (analysis body).contributions graph solution block) :
    ∃ input, Ahead body solution (body.startOf block) input ∧ Bound body input ∧
      ∀ dest src, input.Has dest src → path.Has dest src := by
  have hkey : block ∈ graph.blocks := hflow.blocks ▸ Body.mem_blockKeys.mpr hlt
  obtain ⟨output, hinput, -⟩ := hsettled hkey
  refine ⟨_, ⟨[], _, rfl, hinput, rfl⟩, hbound.1 hinput, ?_⟩
  refine @Analysis.joinInputs_of_mem _ (analysis body) graph solution (fun _ => True)
    (fun state => ∀ dest src, state.Has dest src → path.Has dest src) block path
    (fun _ _ => trivial) (fun _ _ _ _ => trivial) ?_ ?_ hpath (fun _ _ h => h)
  · exact fun _ _ _ _ h dest src hhas => h dest src (has_meet.mp hhas).1
  · exact fun _ _ _ _ h dest src hhas => h dest src (has_meet.mp hhas).2

/-- The copies at the end of a block are those that flow out of it. -/
theorem mem_contributions_of_end {block target : Block} (hlt : block.index < body.blocks.size)
    (htarget : target ∈ graph.successors block)
    (hahead : Ahead body solution ⟨block, []⟩ copies) :
    copies ∈ (analysis body).contributions graph solution target := by
  have hkey : block ∈ graph.blocks := hflow.blocks ▸ Body.mem_blockKeys.mpr hlt
  obtain ⟨output, hinput, htransfer, houtput⟩ := hsettled hkey
  obtain ⟨before, input, hsplit, hinput', hsteps⟩ := hahead
  dsimp only at hsplit hinput'
  rw [List.append_nil] at hsplit
  rw [hinput] at hinput'
  cases hinput'
  have hsame : output = copies := by
    rw [← hsplit] at hsteps
    exact Except.ok.inj (htransfer.symm.trans hsteps)
  rw [Analysis.contributions]
  refine List.mem_append_right _ (List.mem_filterMap.mpr ⟨block, ?_, by rw [houtput, hsame]⟩)
  exact List.mem_filter.mpr ⟨hkey, List.contains_iff_mem.mpr htarget⟩

variable (hbound : Worklist.Satisfies (Bound body) solution)
include hbound

/-- What is known is carried along an edge. -/
theorem Known.along {block target : Block} (hlt : block.index < body.blocks.size)
    (hlt' : target.index < body.blocks.size) (htarget : target ∈ graph.successors block)
    (h : Known setting body solution ⟨block, []⟩ store) :
    Known setting body solution (body.startOf target) store := by
  obtain ⟨copies, hahead, -, hsound⟩ := h
  have hpath := mem_contributions_of_end hflow hsettled hlt htarget hahead
  obtain ⟨input, hinput, hinputBound, hless⟩ := ahead_startOf hflow hsettled hbound hlt' hpath
  exact ⟨input, hinput, hinputBound, fun dest src hhas => hsound dest src (hless dest src hhas)⟩

variable (wf : WellFormed body)
include wf

/-- At the start of a run nothing is a copy. -/
theorem Known.start (store : Store) :
    Known setting body solution (body.start store).point store := by
  have hpath : ({} : Copies) ∈ (analysis body).contributions graph solution ⟨0⟩ := by
    have hboundary : (analysis body).isBoundary graph ⟨0⟩ = true :=
      beq_iff_eq.mpr (hflow.entry wf.blocks_pos)
    rw [Analysis.contributions, if_pos hboundary]
    exact List.mem_append_left _ List.mem_cons_self
  obtain ⟨input, hahead, hinput, hless⟩ := ahead_startOf hflow hsettled hbound wf.blocks_pos hpath
  exact ⟨input, hahead, hinput, fun dest src hhas => absurd (hless dest src hhas) not_has_empty⟩

/-- What is known is carried along a run. -/
theorem Known.next (hfields : setting.Separates body) {config config' : Config}
    (hat : body.At config.block config.rest)
    (h : Known setting body solution config.point config.store)
    (hstep : body.stepFrom setting config = .going config') :
    Known setting body solution config'.point config'.store := by
  have hrest := wf.commands_of_at hat
  obtain ⟨hleads, heffect⟩ := Body.stepFrom_going
    (fun stmt hstmt => (hrest stmt hstmt).imp fun _ hcommand => hcommand.1) hstep
  rw [Config.point] at h
  -- the statement at the point, if there is one, was performed
  have hover : ∀ {stmt rest}, config.rest = stmt :: rest →
      Known setting body solution ⟨config.block, rest⟩ config'.store := by
    intro stmt rest hsplit
    rcases heffect with ⟨hnil, -⟩ | ⟨stmt', rest', command, hsplit', hcommand, hchanges⟩
    · rw [hsplit] at hnil
      cases hnil
    · rw [hsplit] at hsplit' h
      cases hsplit'
      have hmem : stmt ∈ config.rest := hsplit ▸ List.mem_cons_self
      obtain ⟨command', hcommand', hvalid⟩ := hrest stmt hmem
      rw [hcommand] at hcommand'
      cases hcommand'
      exact h.behind wf hfields hcommand hvalid hchanges
  rcases wf.leads_cases hflow hat hleads with ⟨hblock, stmt, hsplit⟩ | ⟨hstart, htarget, hend⟩
  · rw [show config'.point = ⟨config.block, config'.rest⟩ from congrArg (Point.mk · _) hblock]
    exact hover hsplit
  · have hlt' : config'.block.index < body.blocks.size := (wf.at_leads hat hleads).block_lt
    rw [hstart]
    refine Known.along hflow hsettled hbound hat.block_lt hlt' htarget ?_
    rcases hend with hnil | ⟨stmt, command, label, hsplit, -⟩
    · rcases heffect with ⟨-, hstore⟩ | ⟨stmt, rest, command, hsplit, -⟩
      · have hnil : config.rest = [] := hnil
        rw [hnil] at h
        rw [hstore]
        exact h
      · rw [show config.rest = [] from hnil] at hsplit
        cases hsplit
    · exact hover hsplit

end

/-! ## The changed body -/

/-- The analysis of a body settles. -/
def Solves (steps : Nat) (body : Body) : Prop :=
  ∃ graph solution, FlowGraph.ofBody body = .ok graph ∧
    solve steps graph (analysis body) = .ok solution

/-- A body whose copies settle is one that the solver comes to an end with. -/
theorem solves_iff {steps : Nat} : Solves steps body ↔
    (FlowGraph.ofBody body >>= fun graph => solve steps graph (analysis body)).isOk = true := by
  constructor
  · rintro ⟨graph, solution, hgraph, hsolve⟩
    rw [hgraph]
    show (solve steps graph (analysis body)).isOk = true
    rw [hsolve]
    rfl
  · intro h
    cases hgraph : FlowGraph.ofBody body with
    | error fault => rw [hgraph] at h; cases h
    | ok graph =>
        rw [hgraph] at h
        replace h : (solve steps graph (analysis body)).isOk = true := h
        cases hsolve : solve steps graph (analysis body) with
        | error fault => rw [hsolve] at h; cases h
        | ok solution => exact ⟨graph, solution, hgraph, hsolve⟩

instance (steps : Nat) (body : Body) : Decidable (Solves steps body) :=
  decidable_of_iff _ solves_iff.symm

/-- A body and what became of it, with the copies that were found. -/
structure Propagated (body after : Body) (graph : FlowGraph) (solution : Solution Copies) :
    Prop where
  flow : graph.Of body
  settled : ∀ {block : Block}, block ∈ graph.blocks → Settled graph (analysis body) solution block
  bound : Worklist.Satisfies (Bound body) solution
  same : ∃ records, after = { body with records }
  commands : ∀ {block stmt rest copies command},
    Ahead body solution ⟨block, stmt :: rest⟩ copies → body.command? stmt = some command →
    after.command? stmt = some (command.mapLoads copies.through)

/-- Copies are propagated wherever the analysis settles. -/
theorem propagateCopies_propagated {steps : Nat} (wf : WellFormed body)
    (hsolves : Solves steps body) : ∃ count after graph solution,
      propagateCopies steps body = .ok (count, after) ∧ Propagated body after graph solution := by
  obtain ⟨graph, solution, hgraph, hsolve⟩ := hsolves
  have hflow := FlowGraph.of_ofBody hgraph
  have hsettled : ∀ {block : Block}, block ∈ graph.blocks →
      Settled graph (analysis body) solution block := fun hblock => settled_of_solve hsolve hblock
  have hbound := bound_solution wf hsolve
  obtain ⟨lists, hlists, hpairs⟩ := redirects_spec wf hflow hsettled hbound
  refine ⟨lists.flatten.length, redirectAll body lists.flatten, graph, solution, ?_, hflow,
    hsettled, hbound, redirectAll_same _ body,
    fun hahead hcommand => command?_redirected wf hpairs hahead hcommand⟩
  rw [propagateCopies, hgraph]
  simp only [bind, Except.bind, hsolve]
  simp only [bind, Except.bind] at hlists
  rw [hlists]
  rfl

end

namespace Propagated

variable {setting : Setting} {body after : Body} {graph : FlowGraph} {solution : Solution Copies}
  (h : Propagated body after graph solution)
include h

theorem blocks : after.blocks = body.blocks := by
  obtain ⟨records, rfl⟩ := h.same
  rfl

theorem labels : after.labels = body.labels := by
  obtain ⟨records, rfl⟩ := h.same
  rfl

theorem locations : after.locations = body.locations := by
  obtain ⟨records, rfl⟩ := h.same
  rfl

theorem stmtsOf (block : Block) : after.stmtsOf block = body.stmtsOf block :=
  Body.stmtsOf_congr h.blocks block

/-- Wherever control is, the changed body takes the same step. -/
theorem stepFrom_eq {config : Config} (wf : WellFormed body)
    (hat : body.At config.block config.rest)
    (hknown : Known setting body solution config.point config.store) :
    after.stepFrom setting config = body.stepFrom setting config := by
  cases hrest : config.rest with
  | nil =>
      rw [Body.stepFrom_nil hrest, Body.stepFrom_nil hrest]
      simp only [Body.leave, Body.next?, Body.enter, h.stmtsOf, h.blocks]
  | cons stmt rest =>
      obtain ⟨command, hcommand, -⟩ := wf.commands_of_at hat stmt (hrest ▸ List.mem_cons_self)
      obtain ⟨copies, hahead, -, hsound⟩ := hknown
      rw [Config.point, hrest] at hahead
      rw [Body.stepFrom_eq hrest hcommand, Body.stepFrom_eq hrest (h.commands hahead hcommand)]
      exact Body.perform_mapLoads h.locations h.blocks h.labels fun access _ =>
        hsound.through access.loc

/-- **THE SAME RUN**: the two bodies are at the same point with the same
    contents of the locations after any number of steps. -/
theorem run_eq (wf : WellFormed body) (hfields : setting.Separates body) (store : Store) (n : Nat) :
    (after.execution setting).run n (after.start store) =
      (body.execution setting).run n (body.start store) := by
  have hstart : after.start store = body.start store := by
    rw [Body.start, Body.start, h.stmtsOf]
  rw [hstart]
  have hrun : ∀ config : Config, body.At config.block config.rest →
      Known setting body solution config.point config.store →
      (after.execution setting).run n config = (body.execution setting).run n config := by
    -- by induction on the steps, along with what is known at the point where control stands
    induction n with
    | zero => exact fun _ _ _ => rfl
    | succ n ih =>
        intro config hat hknown
        have hsame : (after.execution setting).step config = (body.execution setting).step config :=
          h.stepFrom_eq wf hat hknown
        cases hstep : (body.execution setting).step config with
        | ended ending =>
            rw [System.run_succ_ended hstep, System.run_succ_ended (hsame.trans hstep)]
        | going next =>
            rw [System.run_succ_going hstep, System.run_succ_going (hsame.trans hstep)]
            obtain ⟨hleads, -⟩ := Body.stepFrom_going (fun stmt hstmt =>
              (wf.commands_of_at hat stmt hstmt).imp fun _ hcommand => hcommand.1) hstep
            exact ih next (wf.at_leads hat hleads)
              (Known.next h.flow h.settled h.bound wf hfields hat hknown hstep)
  exact hrun _ (Body.At.start wf.blocks_pos) (Known.start h.flow h.settled h.bound wf store)

/-- In front of every statement there are copies. -/
theorem ahead_of_mem (wf : WellFormed body) {stmt : Inst} (hstmt : stmt ∈ body.stmts) :
    ∃ block rest copies, Ahead body solution ⟨block, stmt :: rest⟩ copies ∧ Bound body copies := by
  obtain ⟨block, hlt, hmem⟩ := Body.mem_stmts.mp hstmt
  obtain ⟨before, rest, hsplit⟩ := List.append_of_mem hmem
  obtain ⟨output, hinput, -⟩ := h.settled (h.flow.blocks ▸ Body.mem_blockKeys.mpr hlt)
  have hbefore : ∀ other ∈ before, other ∈ body.stmts := fun other hother =>
    Body.mem_stmts.mpr ⟨block, hlt, hsplit ▸ List.mem_append_left _ hother⟩
  obtain ⟨copies, hsteps, hbound⟩ := steps_ok wf (h.bound.1 hinput) hbefore
  exact ⟨block, rest, copies, ⟨before, _, hsplit, hinput, hsteps⟩, hbound⟩

/-- The changed body is well-formed. -/
theorem wellFormed (wf : WellFormed body) : WellFormed after := by
  refine wf.of_commands h.blocks h.locations ⟨0⟩ fun stmt hstmt command hcommand => ?_
  obtain ⟨block, rest, copies, hahead, hbound⟩ := h.ahead_of_mem wf hstmt
  have hvalid := wf.valid hstmt hcommand
  refine ⟨_, h.commands hahead hcommand, ⟨?_, ?_, ?_⟩, command.endsBlock_mapLoads,
    command.isTerminator_mapLoads, fun inst hinst => Or.inl (command.owned_mapLoads ▸ hinst)⟩
  · intro access haccess
    rw [h.locations]
    rcases Command.mem_reads_mapLoads haccess with hold | ⟨old, hold, rfl⟩
    · exact hvalid.reads access hold
    · exact hbound.source_lt (hvalid.reads old hold)
  · rw [command.dest?_mapLoads, h.locations]
    exact hvalid.dest
  · rw [command.target?_mapLoads, h.labels, h.blocks]
    exact hvalid.target

end Propagated

/-- **COPIES ARE PROPAGATED SOUNDLY**: the changed body is at the same
    statement with the same calls made and the same contents of every location
    after any number of steps, and ends in the same way if it ends. -/
theorem propagateCopies_same_runs {steps : Nat} {body : Body} (wf : WellFormed body)
    (hsolves : Solves steps body) :
    ∃ count after, propagateCopies steps body = .ok (count, after) ∧
      ∀ (setting : Setting) (store : Store), setting.Separates body →
        after.read setting = body.read setting ∧
        (∀ n, (after.execution setting).run n (after.start store) =
          (body.execution setting).run n (body.start store)) ∧
        after.behaviour setting store = body.behaviour setting store := by
  obtain ⟨count, after, graph, solution, hresult, h⟩ := propagateCopies_propagated wf hsolves
  refine ⟨count, after, hresult, fun setting store hfields =>
    ⟨Body.read_eq_of_locations h.locations setting, h.run_eq wf hfields store, ?_⟩⟩
  funext n
  simp only [Body.behaviour, System.behaviour, h.run_eq wf hfields store]
  rfl

/-- A body that copies a copy in a loop, and into a field behind the loop. -/
def copiedInLoop : Body where
  name := ⟨0⟩
  records := #[.load ⟨0⟩, .save ⟨0⟩ ⟨2⟩, .load ⟨1⟩, .branch ⟨2⟩ ⟨1⟩,
    .load ⟨2⟩, .save ⟨4⟩ ⟨3⟩, .load ⟨3⟩, .save ⟨6⟩ ⟨1⟩, .jump ⟨0⟩,
    .load ⟨2⟩, .save ⟨9⟩ ⟨4⟩, .ret none]
  locations := #[.localVar ⟨1⟩, .localVar ⟨2⟩, .localVar ⟨3⟩, .localVar ⟨4⟩, .global ⟨5⟩]
  labels := #[some ⟨1⟩, some ⟨3⟩]
  blocks := #[⟨none, [⟨1⟩]⟩, ⟨some ⟨0⟩, [⟨3⟩]⟩, ⟨none, [⟨5⟩, ⟨7⟩, ⟨8⟩]⟩, ⟨some ⟨1⟩, [⟨10⟩, ⟨11⟩]⟩]

/-- The copy that is made in the loop is read through, and nothing else changes. -/
theorem copiedInLoop_same_runs :
    (propagateCopies 40 copiedInLoop).toOption.map Prod.fst = some 3 ∧
    ∃ count after, propagateCopies 40 copiedInLoop = .ok (count, after) ∧
      ∀ (setting : Setting) (store : Store), setting.Separates copiedInLoop →
        after.read setting = copiedInLoop.read setting ∧
        (∀ n, (after.execution setting).run n (after.start store) =
          (copiedInLoop.execution setting).run n (copiedInLoop.start store)) ∧
        after.behaviour setting store = copiedInLoop.behaviour setting store :=
  ⟨by decide +kernel, propagateCopies_same_runs (by decide +kernel) (by decide +kernel)⟩

end Copies

end DecafBackend
