import DecafBackend.Proofs.Fixpoints
import DecafBackend.Proofs.Liveness

/-! # Live reads are found exactly

    The analysis finds every live read, and it finds nothing else: a read that
    counts as live at some end of a block was put there by a statement that
    makes it, and came from that statement against the flow of control over
    statements that do not write its location.

    * `WellFormed.cases_of_successor` — where edges come from
    * `LiveReads.live_of_stepsBackward` — back over the statements of a block
    * `LiveReads.live_of_output` — from block to block
    * `Liveness.ofBody_exact` — live reads, and what definitions reach -/

namespace DecafBackend

/-! ## Edges -/

/-- An edge is the target of the last statement of a block, or control falls
    off the end of the block. -/
theorem WellFormed.cases_of_successor {body : Body} (wf : WellFormed body) {block target : Block}
    {blocks : List Block} (hsuccessors : body.successors block = .ok blocks)
    (htarget : target ∈ blocks) :
    (∃ before stmt command label, body.stmtsOf block = before ++ [stmt] ∧
      body.command? stmt = some command ∧ command.target? = some label ∧
      body.labels[label.index]? = some (some target)) ∨
    (body.next? block = some target ∧ ∀ stmt command, (body.stmtsOf block).getLast? = some stmt →
      body.command? stmt = some command → command.isTerminator = false) := by
  rw [Body.successors] at hsuccessors
  cases hlast : (body.stmtsOf block).getLast? with
  | none =>
      rw [hlast] at hsuccessors
      cases hsuccessors
      exact Or.inr ⟨Option.mem_toList.mp htarget, fun _ _ h => by cases h⟩
  | some last =>
      obtain ⟨before, hsplit⟩ := List.getLast?_eq_some_iff.mp hlast
      obtain ⟨command, hcommand, hvalid⟩ := wf.command_of_mem (List.mem_of_getLast? hlast)
      obtain ⟨record, hrecord, -, htargetEq, -, hterminator⟩ := Body.record_command hcommand
      simp only [hlast, Body.record_eq hrecord, bind, Except.bind] at hsuccessors
      -- the last statement lets control through
      have hnext : record.isTerminator = false → target ∈ (body.next? block).toList →
          body.next? block = some target ∧ ∀ stmt command, some last = some stmt →
            body.command? stmt = some command → command.isTerminator = false := by
        rintro hfalls hmem
        refine ⟨Option.mem_toList.mp hmem, ?_⟩
        rintro stmt other ⟨⟩ hother
        rw [hcommand] at hother
        cases hother
        rw [← hterminator, hfalls]
      -- it goes to a label
      have hjump : ∀ {label placed}, record.target? = some label →
          body.labelBlock label = .ok placed → target ∈ placed.toList →
          ∃ before stmt command label, body.stmtsOf block = before ++ [stmt] ∧
            body.command? stmt = some command ∧ command.target? = some label ∧
            body.labels[label.index]? = some (some target) := by
        intro label placed hlabel hplaced hmem
        refine ⟨before, last, command, label, hsplit, hcommand, htargetEq ▸ hlabel, ?_⟩
        obtain ⟨placed', hplaced', -⟩ := hvalid.target label (htargetEq ▸ hlabel)
        rw [WellFormed.labelBlock_eq hplaced'] at hplaced
        cases hplaced
        rw [hplaced', Option.mem_toList.mp hmem]
      cases record with
      | jump label =>
          dsimp only at hsuccessors
          obtain ⟨placed, hplaced, hsuccessors⟩ := Checked.bind_eq_ok hsuccessors
          cases hsuccessors
          exact Or.inl (hjump rfl hplaced htarget)
      | branch cond label =>
          dsimp only at hsuccessors
          obtain ⟨placed, hplaced, hsuccessors⟩ := Checked.bind_eq_ok hsuccessors
          cases hsuccessors
          rw [List.mem_eraseDups, List.mem_append] at htarget
          exact htarget.imp (hjump rfl hplaced) (hnext rfl)
      | ret | exit => cases hsuccessors; cases htarget
      | load | param | binary | unary | call | save | use | label =>
          cases hsuccessors
          exact Or.inr (hnext rfl htarget)

namespace LiveReads

/-! ## Nothing else is found -/

/-- A read is not spared where it is live. -/
theorem spares_eq_false_iff {access : Access} {live : LiveReads} :
    spares access live = false ↔ access ∈ live := by
  rw [Bool.eq_false_iff, ne_eq, spares_iff, Classical.not_not]

section

variable {body : Body} (wf : WellFormed body) {graph : FlowGraph} (hflow : graph.Of body)
include wf hflow

/-- What is found in front of some last statements of a block is live there, if
    what is found behind them is live in a block that comes next. -/
theorem live_of_stepsBackward {block : Block} (hlt : block.index < body.blocks.size)
    {access : Access} {output : LiveReads}
    (houtput : access ∈ output → body.tracks access.loc = true ∧
      ∃ target ∈ graph.successors block, body.Live access (body.startOf target))
    {before rest : List Inst} (hsplit : body.stmtsOf block = before ++ rest)
    (hfront : ∀ stmt command, before.getLast? = some stmt → body.command? stmt = some command →
      command.endsBlock = false)
    {live : LiveReads} (hsteps : stepsBackward body rest output = .ok live)
    (haccess : access ∈ live) :
    body.tracks access.loc = true ∧ body.Live access ⟨block, rest⟩ := by
  -- by induction on the statements that are left in the block
  induction rest generalizing before live with
  | nil =>
      cases hsteps
      rw [List.append_nil] at hsplit
      obtain ⟨htracks, target, htarget, hlive⟩ := houtput haccess
      refine ⟨htracks, ?_⟩
      rcases wf.cases_of_successor (hflow.successors hlt) htarget with
        ⟨front, stmt, command, label, hlast, hcommand, hlabel, -⟩ | ⟨hnext, -⟩
      · have hends := hfront stmt command (by rw [← hsplit, hlast, List.getLast?_concat]) hcommand
        cases command with
        | jump | branch => cases hends
        | save | call | use | label | ret | exit => cases hlabel
      · exact hlive.back (.leave hnext) (Body.not_writes_of_nil rfl)
  | cons stmt tail ih =>
      have hmem : stmt ∈ body.stmtsOf block := hsplit ▸ List.mem_append_right _ List.mem_cons_self
      obtain ⟨command, hcommand, hvalid⟩ := wf.command_of_mem hmem
      rw [stepsBackward_cons] at hsteps
      obtain ⟨behind, hbehind, hstep⟩ := Checked.bind_eq_ok hsteps
      obtain ⟨found, hfound, hiff⟩ := stepBackward_spec hcommand hvalid behind
      rw [hfound] at hstep
      cases hstep
      rcases (hiff access).mp haccess with ⟨hread, htracks⟩ | ⟨hold, hkept⟩
      · exact ⟨htracks, .of_reads ⟨stmt, tail, command, rfl, hcommand, hread⟩⟩
      cases hends : command.endsBlock with
      | false =>
          have hfalls : command.isTerminator = false := by
            cases command with
            | jump | branch | ret | exit => cases hends
            | save | call | use | label => rfl
          have hsplit' : body.stmtsOf block = (before ++ [stmt]) ++ tail := by
            rw [hsplit, List.append_assoc]
            rfl
          obtain ⟨htracks, hlive⟩ := ih hsplit' (fun last other hlast hother => by
            rw [List.getLast?_concat] at hlast
            cases hlast
            rw [hcommand] at hother
            cases hother
            exact hends) hbehind hold
          refine ⟨htracks, hlive.back (.fall hcommand hfalls) ?_⟩
          exact Body.not_writes_of_dest rfl hcommand fun hdest =>
            hkept (Body.trackedDest?_eq_some.mpr ⟨hdest, htracks⟩)
      | true =>
          -- control leaves the block here
          obtain rfl := wf.enders hsplit hcommand hends
          cases hbehind
          obtain ⟨htracks, target, htarget, hlive⟩ := houtput hold
          have hnot : ¬ body.Writes access.loc ⟨block, [stmt]⟩ := by
            refine Body.not_writes_of_dest rfl hcommand fun hdest => ?_
            obtain ⟨value, rfl⟩ := Command.eq_save hdest
            cases hends
          refine ⟨htracks, ?_⟩
          rcases wf.cases_of_successor (hflow.successors hlt) htarget with
            ⟨front, last, other, label, hlast, hother, hlabel, hplaced⟩ | ⟨hnext, hthrough⟩
          · rw [hsplit] at hlast
            obtain ⟨-, hsame⟩ := List.append_inj' hlast rfl
            cases hsame
            exact hlive.back (.jump hother hlabel hplaced) hnot
          · have hfalls := hthrough stmt command
              (by rw [hsplit, List.getLast?_concat]) hcommand
            exact (hlive.back (.leave hnext) (Body.not_writes_of_nil rfl)).back
              (.fall hcommand hfalls) hnot

variable {steps : Nat} {solution : Solution LiveReads}
  (hsolve : solve steps graph (analysis body) = .ok solution)
include hsolve

/-- **NOTHING BUT LIVE READS IS FOUND** at the start of a block. -/
theorem live_of_output {block : Block} {live : LiveReads}
    (houtput : solution.outputs[block]? = some live) {access : Access} (haccess : access ∈ live) :
    body.tracks access.loc = true ∧ body.Live access (body.startOf block) := by
  refine lost_of_solve (descends wf) (wf.closed hflow)
    (Or.inr fun access => spares_iff.mpr Std.ExtTreeSet.not_mem_empty) (fun block access =>
      body.tracks access.loc = true ∧ body.Live access (body.startOf block))
    ?_ hsolve houtput (spares_eq_false_iff.mpr haccess)
  intro block input output access hblock _ htransfer hlacks hbehind
  have hlt : block.index < body.blocks.size := Body.mem_blockKeys.mp (hflow.blocks ▸ hblock)
  have hsplit : body.stmtsOf block = [] ++ body.stmtsOf block := rfl
  refine live_of_stepsBackward wf hflow hlt (fun hmem => ?_) hsplit (fun _ _ h => by cases h)
    htransfer (spares_eq_false_iff.mp hlacks)
  rcases hbehind (spares_eq_false_iff.mpr hmem) with
    ⟨-, hinitial⟩ | ⟨target, htarget, htracks, hlive⟩
  · exact absurd (spares_eq_false_iff.mp hinitial) Std.ExtTreeSet.not_mem_empty
  · exact ⟨htracks, target, htarget, hlive⟩

end

end LiveReads

namespace Liveness

/-! ## Exactness -/

/-- Liveness says of every definition which reads it reaches, and of both ends
    of every block which reads are live there. -/
structure Exact (body : Body) (graph : FlowGraph) (liveness : Liveness) : Prop where
  /-- A definition of a variable or temporary reaches the reads of it that
      control can come to from behind the definition without another write. -/
  reached : ∀ {block : Block} {before rest : List Inst} {stmt : Inst} {value : Value} {dest : Loc},
    body.stmtsOf block = before ++ stmt :: rest →
    body.command? stmt = some (.save value dest) → body.tracks dest = true →
    ∀ inst, inst ∈ liveness.reachedBy stmt ↔ body.Live ⟨inst, dest⟩ ⟨block, rest⟩
  /-- The reads that are live at the start of a block. -/
  liveIn : ∀ block ∈ body.blockKeys, ∃ live, liveness.liveIn block = .ok live ∧
    ∀ access, access ∈ live ↔
      body.tracks access.loc = true ∧ body.Live access (body.startOf block)
  /-- The reads that are live at the end of a block: at the start of some block
      that comes next. -/
  liveOut : ∀ block ∈ body.blockKeys, ∃ live, liveness.liveOut block = .ok live ∧
    ∀ access, access ∈ live ↔ body.tracks access.loc = true ∧
      ∃ target ∈ graph.successors block, body.Live access (body.startOf target)

/-- What is computed is a solution of the analysis. -/
theorem solve_of_compute {body : Body} {graph : FlowGraph} {liveness : Liveness}
    (h : compute body graph = .ok liveness) :
    ∃ steps, solve steps graph (LiveReads.analysis body) = .ok liveness.solution := by
  rw [compute] at h
  obtain ⟨steps, -, h⟩ := Checked.bind_eq_ok h
  obtain ⟨solution, hsolve, h⟩ := Checked.bind_eq_ok h
  obtain ⟨reached, -, h⟩ := Checked.bind_eq_ok h
  cases h
  exact ⟨steps, hsolve⟩

section

variable {body : Body} (wf : WellFormed body) {graph : FlowGraph} {liveness : Liveness}
  (h : Computed body graph liveness) {steps : Nat}
  (hsolve : solve steps graph (LiveReads.analysis body) = .ok liveness.solution)
include wf h hsolve

/-- What is found at the end of a block is live in a block that comes next. -/
theorem live_of_input {block : Block} (hblock : block ∈ graph.blocks) {live : LiveReads}
    (hinput : liveness.solution.inputs[block]? = some live) {access : Access}
    (haccess : access ∈ live) : body.tracks access.loc = true ∧
      ∃ target ∈ graph.successors block, body.Live access (body.startOf target) := by
  obtain ⟨-, hjoin, -⟩ := h.settled hblock
  rw [hinput] at hjoin
  cases hjoin
  rcases lacks_joinInputs (LiveReads.descends wf) h.within.2
    (Or.inr fun access => LiveReads.spares_iff.mpr Std.ExtTreeSet.not_mem_empty)
    (LiveReads.spares_eq_false_iff.mpr haccess) with
    ⟨-, hinitial⟩ | ⟨target, htarget, output, houtput, hlacking⟩
  · exact absurd (LiveReads.spares_eq_false_iff.mp hinitial) Std.ExtTreeSet.not_mem_empty
  · obtain ⟨htracks, hlive⟩ := LiveReads.live_of_output wf h.flow hsolve houtput
      (LiveReads.spares_eq_false_iff.mp hlacking)
    exact ⟨htracks, target, htarget, hlive⟩

/-- What is found behind a statement that does not end its block is live there. -/
theorem live_of_ahead {block : Block} {before rest : List Inst}
    (hsplit : body.stmtsOf block = before ++ rest)
    (hfront : ∀ stmt command, before.getLast? = some stmt → body.command? stmt = some command →
      command.endsBlock = false)
    (hlt : block.index < body.blocks.size) {live : LiveReads}
    (hahead : LiveReads.Ahead body liveness.solution ⟨block, rest⟩ live) {access : Access}
    (haccess : access ∈ live) :
    body.tracks access.loc = true ∧ body.Live access ⟨block, rest⟩ := by
  obtain ⟨output, houtput, hsteps⟩ := hahead
  have hblock : block ∈ graph.blocks := h.flow.blocks ▸ Body.mem_blockKeys.mpr hlt
  exact LiveReads.live_of_stepsBackward wf h.flow hlt
    (fun hmem => live_of_input wf h hsolve hblock houtput hmem) hsplit hfront hsteps haccess

/-- What definitions reach is live behind them, and the other way round. -/
theorem mem_reachedBy_iff {block : Block} {before rest : List Inst} {stmt : Inst} {value : Value}
    {dest : Loc} (hsplit : body.stmtsOf block = before ++ stmt :: rest)
    (hcommand : body.command? stmt = some (.save value dest)) (htracks : body.tracks dest = true)
    (inst : Inst) : inst ∈ liveness.reachedBy stmt ↔ body.Live ⟨inst, dest⟩ ⟨block, rest⟩ := by
  have hdest : body.trackedDest? (.save value dest) = some dest :=
    Body.trackedDest?_eq_some.mpr ⟨rfl, htracks⟩
  have hmem : stmt ∈ body.stmtsOf block := hsplit ▸ List.mem_append_right _ List.mem_cons_self
  have hlt : block.index < body.blocks.size := by
    obtain ⟨block', hlt, hmem'⟩ := Body.mem_stmts.mp (Body.mem_stmts_of_stmtsOf hmem)
    exact wf.block_unique hmem hmem' ▸ hlt
  have hsplit' : body.stmtsOf block = (before ++ [stmt]) ++ rest := by
    rw [hsplit, List.append_assoc]
    rfl
  -- a save does not end the block, so control reaches what is behind it
  have hfront : ∀ other command, (before ++ [stmt]).getLast? = some other →
      body.command? other = some command → command.endsBlock = false := by
    intro other command hlast hother
    rw [List.getLast?_concat] at hlast
    cases hlast
    rw [hcommand] at hother
    cases hother
    rfl
  have hat : body.At block rest := by
    refine ⟨hlt, before ++ [stmt], hsplit', fun other command hlast hother => ?_⟩
    have hends := hfront other command hlast hother
    cases command with
    | jump | branch | ret | exit => cases hends
    | save | call | use | label => rfl
  obtain ⟨live, hahead⟩ := h.ahead_ok wf hat
  rw [reachedBy, h.reached_eq wf hsplit hcommand hahead, hdest]
  show inst ∈ live.readers dest ↔ _
  rw [LiveReads.mem_readers]
  constructor
  · exact fun hfound => (live_of_ahead wf h hsolve hsplit' hfront hlt hahead hfound).2
  · exact fun hlive => LiveReads.mem_of_live wf h.flow h.settled h.within htracks hat hlive hahead

/-- The analysis is exact. -/
theorem exact_of_computed : Exact body graph liveness where
  reached hsplit hcommand htracks := mem_reachedBy_iff wf h hsolve hsplit hcommand htracks
  liveIn block hblock := by
    have hlt := Body.mem_blockKeys.mp hblock
    obtain ⟨output, hinput, htransfer, houtput⟩ := h.settled (h.flow.blocks ▸ hblock)
    refine ⟨output, by rw [Liveness.liveIn, Solution.output, houtput], fun access => ?_⟩
    refine ⟨LiveReads.live_of_output wf h.flow hsolve houtput, ?_⟩
    rintro ⟨htracks, hlive⟩
    exact LiveReads.mem_of_live wf h.flow h.settled h.within htracks (Body.At.start hlt) hlive
      ⟨_, hinput, htransfer⟩
  liveOut block hblock := by
    have hlt := Body.mem_blockKeys.mp hblock
    have hmem : block ∈ graph.blocks := h.flow.blocks ▸ hblock
    obtain ⟨-, hinput, -⟩ := h.settled hmem
    refine ⟨_, by rw [Liveness.liveOut, Solution.input, hinput], fun access => ?_⟩
    refine ⟨live_of_input wf h hsolve hmem hinput, ?_⟩
    rintro ⟨htracks, target, htarget, hlive⟩
    have htargetLt := wf.lt_of_mem_successors (h.flow.successors hlt) htarget
    obtain ⟨before, hahead⟩ := h.ahead_ok wf (Body.At.start htargetLt)
    have hbefore := LiveReads.mem_of_live wf h.flow h.settled h.within htracks
      (Body.At.start htargetLt) hlive hahead
    exact LiveReads.mem_along wf h.flow h.settled hlt htarget hahead ⟨_, hinput, rfl⟩ access hbefore

end

/-- **LIVENESS IS EXACT, AND ALWAYS COMPUTED**: a definition reaches exactly the
    reads of its location that control can come to without another write, and
    the same holds of what is live at the ends of blocks.  The body may have
    unreachable blocks and loops without an exit. -/
theorem ofBody_exact {body : Body} (wf : WellFormed body) : ∃ graph liveness,
    FlowGraph.ofBody body = .ok graph ∧ Liveness.ofBody body = .ok liveness ∧
      Exact body graph liveness := by
  obtain ⟨graph, hgraph, hflow⟩ := wf.flowGraph_ok
  obtain ⟨liveness, hliveness, hcomputed⟩ := compute_ok wf hflow
  obtain ⟨steps, hsolve⟩ := solve_of_compute hliveness
  refine ⟨graph, liveness, hgraph, ?_, exact_of_computed wf hcomputed hsolve⟩
  rw [Liveness.ofBody, hgraph]
  exact hliveness

/-- What the loop stores is read by its test, by itself in the next round, and
    behind it. -/
theorem countingDown_exact : ∃ graph liveness,
    FlowGraph.ofBody countingDown = .ok graph ∧ Liveness.ofBody countingDown = .ok liveness ∧
      Exact countingDown graph liveness ∧ liveness.reachedBy ⟨8⟩ = [⟨3⟩, ⟨5⟩, ⟨12⟩] ∧
      countingDown.Live ⟨⟨5⟩, ⟨0⟩⟩ ⟨⟨2⟩, [⟨9⟩]⟩ := by
  have wf : WellFormed countingDown := by decide +kernel
  obtain ⟨graph, liveness, hgraph, hliveness, hexact⟩ := ofBody_exact wf
  have htest : (Liveness.ofBody countingDown).toOption.map (fun found => found.reachedBy ⟨8⟩) =
      some [⟨3⟩, ⟨5⟩, ⟨12⟩] := by decide +kernel
  rw [hliveness] at htest
  have hreached : liveness.reachedBy ⟨8⟩ = [⟨3⟩, ⟨5⟩, ⟨12⟩] := Option.some.inj htest
  refine ⟨graph, liveness, hgraph, hliveness, hexact, hreached, ?_⟩
  have hsplit : countingDown.stmtsOf ⟨2⟩ = [] ++ (⟨8⟩ : Inst) :: [⟨9⟩] := rfl
  refine (hexact.reached hsplit rfl rfl ⟨5⟩).mp ?_
  rw [hreached]
  decide

end Liveness

end DecafBackend
