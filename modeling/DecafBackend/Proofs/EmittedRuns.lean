import Std.Data.String.ToNat
import DecafBackend.Proofs.DeadSavesElimination
import DecafBackend.Proofs.EmittedCommands

/-! # Runs of machine code

    The code of a method runs along with the method: where a statement of the
    body is performed, its code is run through, and a jump of the body is a jump
    to the label at the start of the code of a block.

    * `Unlabelled`, `StmtsCode.fromLabel` — labels stand at the starts of blocks
    * `Served` — what a run needs of the functions that it calls
    * `Beside`, `Beside.step` — the two runs side by side
    * `emitMethod_same` — whole runs -/

namespace DecafBackend

/-- What a run does later is all that it does, up to calls that it has made. -/
theorem System.same_of_going {σ : Type} {sys : System σ} {s later : σ} {k : Nat}
    (h : sys.run k s = .going later) :
    Behaviour.Same (sys.behaviour s) (sys.behaviour later) := by
  constructor
  · intro ending
    rw [ends_iff, ends_iff]
    constructor
    · rintro ⟨n, hn⟩
      have hlate := run_ended_add hn k
      rw [Nat.add_comm, run_add h] at hlate
      exact ⟨n, hlate⟩
    · rintro ⟨n, hn⟩
      exact ⟨k + n, by rw [run_add h, hn]⟩
  · intro calls
    have hlater : ∀ n, sys.behaviour s (k + n) = sys.behaviour later n := by
      intro n
      rw [behaviour, behaviour, run_add h]
    constructor
    -- calls made before the later state are those of its first step
    · rintro ⟨n, hn⟩
      by_cases hle : n ≤ k
      · refine ⟨0, hn.trans ?_⟩
        cases hrun : sys.run n s with
        | ended ending => exact absurd hrun (not_ended_of_going hle h)
        | going middle =>
            rw [← Nat.add_sub_cancel' hle, run_add hrun] at h
            rw [behaviour_going hrun]
            exact calls_run h
      · refine ⟨n - k, ?_⟩
        rw [← hlater, Nat.add_sub_cancel' (by omega)]
        exact hn
    · rintro ⟨n, hn⟩
      exact ⟨k + n, by rw [hlater]; exact hn⟩

namespace Body

/-! ## Statements in order -/

/-- The statements behind a block. -/
def stmtsBehind (body : Body) (block : Block) : List Inst :=
  (body.blocks.toList.drop (block.index + 1)).flatMap BasicBlock.stmts

variable {body : Body}

/-- From the start of a block on. -/
theorem stmtsFrom_eq {block : Block} (h : block.index < body.blocks.size) :
    (body.blocks.toList.drop block.index).flatMap BasicBlock.stmts =
      body.stmtsOf block ++ body.stmtsBehind block := by
  have hlt : block.index < body.blocks.toList.length := by rwa [Array.length_toList]
  rw [List.drop_eq_getElem_cons hlt, List.flatMap_cons, Array.getElem_toList,
    stmtsOf_eq (Array.getElem?_eq_getElem h), stmtsBehind]

/-- The statements of a body are divided at each of its blocks. -/
theorem stmts_eq {block : Block} (h : block.index < body.blocks.size) :
    ∃ before, body.stmts = before ++ (body.stmtsOf block ++ body.stmtsBehind block) := by
  refine ⟨(body.blocks.toList.take block.index).flatMap BasicBlock.stmts, ?_⟩
  rw [← stmtsFrom_eq h, ← List.flatMap_append, List.take_append_drop, stmts]

/-- The first block comes first. -/
theorem stmts_eq_start (h : 0 < body.blocks.size) :
    body.stmts = body.stmtsOf ⟨0⟩ ++ body.stmtsBehind ⟨0⟩ := stmtsFrom_eq h

/-- Behind a block comes the next one. -/
theorem stmtsBehind_eq {block next : Block} (h : body.next? block = some next) :
    body.stmtsBehind block = body.stmtsOf next ++ body.stmtsBehind next := by
  have hlt := WellFormed.next?_lt h
  rw [next?] at h
  split at h
  · cases h
    exact stmtsFrom_eq hlt
  · cases h

end Body

namespace Emission

/-! ## Labels -/

/-- Labels have names of their own. -/
theorem labelName_injective {a b : Label} (h : labelName a = labelName b) : a = b := by
  obtain ⟨i⟩ := a
  obtain ⟨j⟩ := b
  have hrepr : Nat.repr i = Nat.repr j := by
    simpa [labelName, toString] using h
  rw [Nat.repr_injective hrepr]

/-- Code without labels. -/
def Unlabelled (code : List Instruction) : Prop := ∀ name, Instruction.label name ∉ code

@[simp] theorem unlabelled_nil : Unlabelled [] := fun _ h => by cases h

@[simp] theorem unlabelled_cons {instruction : Instruction} {code : List Instruction} :
    Unlabelled (instruction :: code) ↔ (∀ name, instruction ≠ .label name) ∧ Unlabelled code := by
  simp only [Unlabelled, List.mem_cons, not_or, forall_and, ne_comm]

@[simp] theorem unlabelled_append {first second : List Instruction} :
    Unlabelled (first ++ second) ↔ Unlabelled first ∧ Unlabelled second := by
  simp only [Unlabelled, List.mem_append, not_or, forall_and]

/-- Instructions that are no labels place none. -/
theorem unlabelled_map {α : Type} {f : α → Instruction} (hf : ∀ a name, f a ≠ .label name)
    (list : List α) : Unlabelled (list.map f) := by
  intro name hmem
  obtain ⟨a, -, heq⟩ := List.mem_map.mp hmem
  exact hf a name heq

section

variable {context : Context} {session : Session}

/-- Reads place no label. -/
theorem Reads.unlabelled {access : Access} {pool pool' : ScratchPool} {register : Register}
    {code : List Instruction} (h : Reads context session access pool register pool' code) :
    Unlabelled code := by
  cases h with
  | bound hbound => exact unlabelled_nil
  | fetched htake hfetches => cases hfetches <;> simp

/-- Pushed arguments place no label. -/
theorem Pushes.unlabelled {inst : Inst} {args : List Loc} {code : List Instruction}
    (h : Pushes context session inst args code) : Unlabelled code := by
  induction h with
  | nil => exact unlabelled_nil
  | cons hreads _ ih => simp [hreads.unlabelled, ih]

/-- A choice places no label if neither side does. -/
theorem unlabelled_ite {c : Prop} [Decidable c] {first second : List Instruction}
    (hfirst : Unlabelled first) (hsecond : Unlabelled second) :
    Unlabelled (if c then first else second) := by
  split
  · exact hfirst
  · exact hsecond

/-- Calls place no label. -/
theorem CallCode.unlabelled {inst : Inst} {target : Symbol} {args : List Loc} {isExternal : Bool}
    {saved : List Register} {code : List Instruction}
    (h : CallCode context session inst target args isExternal saved code) : Unlabelled code := by
  obtain ⟨-, hstacked, hregistered⟩ := h
  have hpush : ∀ registers, Unlabelled (pushAll registers) :=
    unlabelled_map fun register name heq => by cases heq
  have hpop : ∀ registers, Unlabelled (popAll registers) := fun registers =>
    unlabelled_map (fun register name heq => by cases heq) registers.reverse
  simp [hpush, hpop, hstacked.unlabelled, hregistered.unlabelled, unlabelled_ite]

/-- Moves place no label. -/
theorem unlabelled_moveCode (dest src : Register) : Unlabelled (moveCode dest src) :=
  unlabelled_ite (by simp) unlabelled_nil

/-- Unary operations place no label. -/
theorem unlabelled_unaryCode (op : UnaryOp) (operand : Register) :
    Unlabelled (unaryCode op operand) := by
  cases op <;> simp [unaryCode, unlabelled_moveCode]

/-- Sums and products place no label. -/
theorem unlabelled_combineCode (op : AluOp) (lhs rhs : Register) :
    Unlabelled (combineCode op lhs rhs) :=
  unlabelled_ite (unlabelled_ite (by simp) (by simp)) (by simp [unlabelled_moveCode])

/-- Binary operations place no label. -/
theorem unlabelled_binaryCode (op : BinaryOp) (lhs rhs : Register) :
    Unlabelled (binaryCode op lhs rhs) := by
  cases op with
  | add | sub | mul => exact unlabelled_combineCode _ _ _
  | div | mod => simp [binaryCode, divideCode]
  | eq | ne | lt | le | gt | ge => simp [binaryCode, compareCode]

/-- Values place no label. -/
theorem ValueCode.unlabelled {value : Value} {register : Register} {code : List Instruction}
    (h : ValueCode context session value register code) : Unlabelled code := by
  cases h with
  | load hreads => exact hreads.unlabelled
  | param hparam => simp
  | unary hreads => simp [hreads.unlabelled, unlabelled_unaryCode]
  | binary hleft hright => simp [hleft.unlabelled, hright.unlabelled, unlabelled_binaryCode]
  | call hcall => simp [hcall.unlabelled]

/-- The end of a method places no label. -/
theorem unlabelled_epilogueCode (context : Context) : Unlabelled (epilogueCode context) := by
  have hpop : Unlabelled (popAll context.calleeSaved) :=
    unlabelled_map (fun register name heq => by cases heq) context.calleeSaved.reverse
  simp [epilogueCode, hpop]

/-- The start of a method places no label. -/
theorem unlabelled_prologueCode (context : Context) (size : Int) :
    Unlabelled (prologueCode context size) := by
  have hpush : Unlabelled (pushAll context.calleeSaved) :=
    unlabelled_map (fun register name heq => by cases heq) context.calleeSaved
  have hstores := unlabelled_map
    (fun (param : Int × Register) name (heq : Instruction.mov (.frame param.1) (.reg param.2) =
      .label name) => by cases heq) (context.frame.params.zip Register.arguments)
  simp [prologueCode, hpush, hstores, unlabelled_ite]

/-- Only labels have labels in their code. -/
theorem CommandCode.unlabelled {stmt : Inst} {command : Command} {code : List Instruction}
    (h : CommandCode context session stmt command code)
    (hlabel : ∀ place, command ≠ .label place) : Unlabelled code := by
  cases h with
  | save hvalue hplaces =>
      simp [hvalue.unlabelled, storeCode, unlabelled_ite]
  | call hcall => exact hcall.unlabelled
  | use loc => exact unlabelled_nil
  | label place => exact absurd rfl (hlabel place)
  | jump target => simp
  | branch hreads => simp [hreads.unlabelled]
  | ret => simp [unlabelled_epilogueCode]
  | retValue hreads => simp [hreads.unlabelled, unlabelled_epilogueCode]
  | exit code => simp

/-- Code without the label is searched in vain. -/
theorem fromLabel_append {name : String} {first second : List Instruction}
    (h : Instruction.label name ∉ first) :
    Machine.fromLabel name (first ++ second) = Machine.fromLabel name second := by
  induction first with
  | nil => rfl
  | cons instruction first ih =>
      rw [List.mem_cons, not_or] at h
      rw [List.cons_append, Machine.fromLabel, if_neg (Ne.symm h.1), ih h.2]

/-- Code of statements is divided as they are. -/
theorem StmtsCode.append {before after : List Inst} {code : List Instruction}
    (h : StmtsCode context session (before ++ after) code) :
    ∃ first second, code = first ++ second ∧ StmtsCode context session before first ∧
      StmtsCode context session after second := by
  induction before generalizing code with
  | nil => exact ⟨[], code, rfl, .nil, h⟩
  | cons stmt before ih =>
      cases h with
      | cons hcommand hcode hrest =>
          obtain ⟨first, second, rfl, hfirst, hsecond⟩ := ih hrest
          exact ⟨_, second, (List.append_assoc _ _ _).symm, .cons hcommand hcode hfirst, hsecond⟩

/-- The code of statements has the labels that they place. -/
theorem StmtsCode.not_mem {stmts : List Inst} {code : List Instruction} {place : Label}
    (h : StmtsCode context session stmts code)
    (hplace : ∀ stmt ∈ stmts, context.body.command? stmt ≠ some (.label place)) :
    Instruction.label (labelName place) ∉ code := by
  induction h with
  | nil => exact unlabelled_nil _
  | @cons stmt stmts command code rest hcommand hcode hrest ih =>
      rw [List.mem_append, not_or]
      refine ⟨?_, ih fun other hother => hplace other (List.mem_cons_of_mem _ hother)⟩
      by_cases hlabel : ∃ other, command = .label other
      · obtain ⟨other, rfl⟩ := hlabel
        cases hcode
        rw [List.mem_singleton]
        intro heq
        injection heq with hname
        obtain rfl := labelName_injective hname
        exact hplace stmt List.mem_cons_self hcommand
      · exact hcode.unlabelled (fun other heq => hlabel ⟨other, heq⟩) _

/-- **JUMPS GO TO BLOCKS**: the code from a label on is the code of the statements
    from the block of the label on. -/
theorem StmtsCode.fromLabel {code : List Instruction} {size : Int} {label : Label} {target : Block}
    (h : StmtsCode context session context.body.stmts code) (ready : context.body.Ready)
    (hplaced : context.body.labels[label.index]? = some (some target))
    (hlt : target.index < context.body.blocks.size) :
    ∃ rest, Machine.fromLabel (labelName label) (prologueCode context size ++ code) = some rest ∧
      StmtsCode context session
        (context.body.stmtsOf target ++ context.body.stmtsBehind target) rest := by
  obtain ⟨before, hstmts⟩ := Body.stmts_eq hlt
  obtain ⟨stmt, behind, hblock, hcommand⟩ := ready.labelled hplaced
  rw [hstmts] at h
  obtain ⟨first, second, rfl, hfirst, hsecond⟩ := h.append
  refine ⟨second, ?_, hsecond⟩
  -- nothing in front of the block places the label, so the search ends at the block
  have hnot : ∀ other ∈ before, context.body.command? other ≠ some (.label label) := by
    intro other hother hlabel
    have hmem : other ∈ context.body.stmts := by
      rw [hstmts]
      exact List.mem_append_left _ hother
    obtain ⟨block, rest, hplaced', hblock'⟩ := ready.placed hmem hlabel
    rw [hplaced] at hplaced'
    cases hplaced'
    rw [hblock] at hblock'
    cases hblock'
    -- the label would stand in two places
    have hdistinct := ready.wellFormed.distinct
    rw [hstmts, hblock] at hdistinct
    exact (List.nodup_append.mp hdistinct).2.2 _ hother _ List.mem_cons_self rfl
  rw [fromLabel_append (unlabelled_prologueCode _ _ _), fromLabel_append (hfirst.not_mem hnot)]
  rw [hblock] at hsecond
  cases hsecond with
  | cons hcommand' hcode hrest =>
      rw [hcommand] at hcommand'
      cases hcommand'
      cases hcode
      exact if_pos rfl

end

/-! ## Two runs side by side -/

/-- What a run needs of the functions that it calls: they take the arguments
    that they are given, and the stack has room for these; and where the run
    ends the process, this is what the routine for it does. -/
structure Served (machine : Machine) (behaviour : Behaviour) : Prop where
  takes : ∀ {event : CallEvent} {calls : List CallEvent}, behaviour.Makes (event :: calls) →
    Takes machine calls event
  exits : ∀ {ending : Ending} {code : Int32}, behaviour.Ends ending →
    ending.outcome = .aborted (.exit code) → machine.callee ending.calls exitRoutine = .exits

/-- Control does not come to the end of a body. -/
theorem next?_of_at {body : Body} (wf : WellFormed body) {block : Block} (h : body.At block []) :
    ∃ next, body.next? block = some next := by
  by_cases hlt : block.index + 1 < body.blocks.size
  · exact ⟨_, if_pos hlt⟩
  · obtain ⟨before, hstmts, hfalls⟩ := h.reached
    obtain ⟨stmt, command, hlast, hcommand, hends⟩ := wf.ending
    have hindex : body.blocks.size - 1 = block.index := by
      have := h.block_lt
      omega
    have hback : body.lastStmt? = (body.stmtsOf block).getLast? := by
      rw [Body.lastStmt?, Array.back?_eq_getElem?, hindex, Array.getElem?_eq_getElem h.block_lt,
        Body.stmtsOf_eq (Array.getElem?_eq_getElem h.block_lt)]
      rfl
    rw [hback, hstmts, List.append_nil] at hlast
    cases hends.symm.trans (hfalls stmt command hlast hcommand)

/-- How many steps a run can take without its code at most: statements may have no
    code, and the ends of blocks have none. -/
def idleSteps (body : Body) (config : Config) : Nat :=
  (config.rest ++ body.stmtsBehind config.block).length + (body.blocks.size - config.block.index)

/-- To fall into the next block is one of the steps that are left without code. -/
theorem idleSteps_enter {body : Body} {config : Config} {next : Block} (hrest : config.rest = [])
    (hnext : body.next? config.block = some next) :
    idleSteps body (body.enter config next) < idleSteps body config := by
  have hlt := WellFormed.next?_lt hnext
  have hindex : next.index = config.block.index + 1 := by
    rw [Body.next?] at hnext
    split at hnext
    · cases hnext; rfl
    · cases hnext
  have hafter : idleSteps body (body.enter config next) =
      (body.stmtsOf next ++ body.stmtsBehind next).length + (body.blocks.size - next.index) := rfl
  rw [hafter, idleSteps, hrest, List.nil_append, Body.stmtsBehind_eq hnext]
  omega

section

variable {context : Context} {session : Session} {machine : Machine} {size : Int} {store : Store}

/-- The runs of the body of a method on a machine. -/
def runsOn (context : Context) (session : Session) (machine : Machine) : System Config :=
  context.body.execution (machine.setting context.symbols session)

/-- A run of a body and a run of its code: the code of all statements ahead is
    still to run, and everything wanted is in place. -/
structure Beside (context : Context) (session : Session) (machine : Machine) (size : Int)
    (store : Store) (config : Config) (point : Machine.Point) : Prop where
  reached : ∃ n, (runsOn context session machine).run n (context.body.start store) = .going config
  control : context.body.At config.block config.rest
  code : StmtsCode context session (config.rest ++ context.body.stmtsBehind config.block) point.rest
  keeping : Keeping context machine size config point.state

/-- The end of a block has no code. -/
theorem Beside.leave {config : Config} {point : Machine.Point} {next : Block}
    (h : Beside context session machine size store config point) (layout : Layout context size)
    (hrest : config.rest = []) (hnext : context.body.next? config.block = some next) :
    Beside context session machine size store (context.body.enter config next) point := by
  obtain ⟨n, hrun⟩ := h.reached
  have hstep : (runsOn context session machine).step config =
      .going (context.body.enter config next) := by
    show context.body.stepFrom _ config = _
    rw [Body.stepFrom_nil hrest, Body.leave, hnext]
  have hleads : context.body.Leads config.point (context.body.startOf next) := by
    rw [Config.point, hrest]
    exact .leave hnext
  refine ⟨⟨n + 1, ?_⟩, layout.ready.wellFormed.at_leads h.control hleads, ?_,
    h.keeping.1.mono fun hlive => hlive.back hleads (Body.not_writes_of_nil hrest), h.keeping.2⟩
  · rw [System.run_add hrun, System.run_one, hstep]
  · have hcode := h.code
    rw [hrest, List.nil_append, Body.stmtsBehind_eq hnext] at hcode
    exact hcode

section

variable (layout : Layout context size) (hlinked : Linked session machine)
  {code : List Instruction} (hcode : machine.code = prologueCode context size ++ code)
  (hstmts : StmtsCode context session context.body.stmts code)
  (hserved : Served machine
    (context.body.behaviour (machine.setting context.symbols session) store))
include layout hlinked hserved

/-- A statement is performed as its code says. -/
theorem Beside.matched {config : Config} {point : Machine.Point} {stmt : Inst} {rest : List Inst}
    {command : Command} {first : List Instruction}
    (h : Beside context session machine size store config point)
    (hrest : config.rest = stmt :: rest)
    (hcommand : context.body.command? stmt = some command)
    (hfirst : CommandCode context session stmt command first) :
    CommandMatched context machine size { config with rest } (machine.through point.state first)
      ((runsOn context session machine).step config) := by
  have hat := h.control
  have hkeeping := h.keeping
  rw [hrest] at hat
  rw [Keeping, Config.point, hrest] at hkeeping
  obtain ⟨n, hrun⟩ := h.reached
  have hstep : (runsOn context session machine).step config =
      context.body.perform (machine.setting context.symbols session) { config with rest } command :=
    Body.stepFrom_eq hrest hcommand
  have hlast : (runsOn context session machine).run (n + 1) (context.body.start store) =
      context.body.perform (machine.setting context.symbols session) { config with rest }
        command := by
    rw [System.run_add hrun, System.run_one, hstep]
  -- an event of this step is one of the whole run, so the machine serves it
  have htakes : ∀ {event : CallEvent}, event :: config.calls = callsAfter
      (context.body.perform (machine.setting context.symbols session) { config with rest }
        command) → Takes machine config.calls event := by
    intro event hevent
    refine hserved.takes ⟨n + 1, ?_⟩
    show _ <:+ ((runsOn context session machine).behaviour _ _).calls
    rw [System.behaviour, hlast, hevent]
    cases context.body.perform (machine.setting context.symbols session) { config with rest }
      command <;> exact List.suffix_rfl
  rw [hstep]
  refine @CommandCode.matched context session machine size point.state { config with rest } stmt
    command first hat hcommand hkeeping.1 layout hlinked hkeeping.2 hfirst htakes ?_
  rintro exit rfl
  exact hserved.exits (System.ends_iff.mpr ⟨n + 1, hlast⟩) rfl

include hcode hstmts in
/-- **ONE STEP** of a run is matched by its code. -/
theorem Beside.step
    (hunstuck : (context.body.behaviour (machine.setting context.symbols session) store).Unstuck)
    {config : Config} {point : Machine.Point}
    (h : Beside context session machine size store config point) :
    System.StepMatched machine.execution (Beside context session machine size store)
      (idleSteps context.body) config point
      ((runsOn context session machine).withResult.step config) := by
  have wf := layout.ready.wellFormed
  obtain ⟨n, hrun⟩ := h.reached
  have hlast : (runsOn context session machine).run (n + 1) (context.body.start store) =
      (runsOn context session machine).step config := by
    rw [System.run_add hrun, System.run_one]
  simp only [System.withResult]
  -- between blocks the machine waits, else it runs through the code of the statement
  cases hrest : config.rest with
  | nil =>
      obtain ⟨next, hnext⟩ := next?_of_at wf (hrest ▸ h.control)
      have hstep : (runsOn context session machine).step config =
          .going (context.body.enter config next) := by
        show context.body.stepFrom _ config = _
        rw [Body.stepFrom_nil hrest, Body.leave, hnext]
      rw [hstep]
      exact ⟨0, point, rfl, h.leave layout hrest hnext, fun _ => idleSteps_enter hrest hnext⟩
  | cons stmt rest =>
      have hsteps := h.code
      rw [hrest] at hsteps
      obtain ⟨instructions, state⟩ := point
      cases hsteps with
      | @cons _ _ command first others hcommand hfirst hothers =>
          have hmatched := h.matched layout hlinked hserved hrest hcommand hfirst
          have hrun := @Machine.run_through machine others first state _ rfl
          cases hstep : (runsOn context session machine).step config with
          | ended ending =>
              rw [hstep] at hmatched hlast
              have hthrough := hmatched (hunstuck ending (System.ends_iff.mpr ⟨n + 1, hlast⟩))
              rw [hthrough] at hrun
              obtain ⟨k, others', hk⟩ := hrun
              exact ⟨k + 1, hk⟩
          | going next =>
              rw [hstep] at hmatched hlast
              have hleads : context.body.Leads config.point next.point :=
                (Body.stepFrom_going (fun other hother => by
                  obtain ⟨found, hfound, -⟩ := wf.commands_of_at h.control other hother
                  exact ⟨found, hfound⟩) hstep).1
              have hat := wf.at_leads h.control hleads
              obtain ⟨block, behind, store', calls⟩ := next
              -- control goes on behind the statement, or at the label that its code jumps
              -- to
              obtain ⟨after, hkeeping, ⟨hthrough, hpoint⟩ | ⟨label, target, hthrough, hplaced,
                hpoint⟩⟩ := hmatched
              · cases hpoint
                rw [hthrough] at hrun
                refine ⟨first.length, ⟨others, after⟩, hrun, ⟨⟨n + 1, hlast⟩, hat, hothers,
                  hkeeping⟩, fun _ => ?_⟩
                have hafter : idleSteps context.body ⟨config.block, rest, store', calls⟩ =
                    (rest ++ context.body.stmtsBehind config.block).length +
                      (context.body.blocks.size - config.block.index) := rfl
                rw [hafter, idleSteps, hrest, List.cons_append, List.length_cons]
                omega
              · obtain rfl : block = target := congrArg Point.block hpoint
                obtain rfl : behind = context.body.stmtsOf block := congrArg Point.rest hpoint
                obtain ⟨instructions, hfrom, hcode'⟩ :=
                  @StmtsCode.fromLabel context session code size label block hstmts layout.ready
                    hplaced hat.block_lt
                rw [hthrough] at hrun
                obtain ⟨k, others', hk⟩ := hrun
                rw [Machine.proceed, hcode, hfrom] at hk
                refine ⟨k + 1, ⟨instructions, after⟩, hk, ⟨⟨n + 1, hlast⟩, hat, hcode', hkeeping⟩,
                  fun hzero => absurd hzero (Nat.succ_ne_zero k)⟩

include hcode hstmts in
/-- The code of a method behaves like the method. -/
theorem emitted_same (hglobals : store = ⟨fun _ => none, machine.entry.globals⟩)
    (hcalls : machine.entry.calls = [])
    (hunstuck : (context.body.behaviour (machine.setting context.symbols session) store).Unstuck) :
    Behaviour.Same
      (context.body.behaviour (machine.setting context.symbols session) store).withResult
      machine.behaviour := by
  have wf := layout.ready.wellFormed
  obtain ⟨after, hprologue, hframed, hafter, hmade⟩ :=
    @through_prologueCode context machine size layout
  have hrun := @Machine.run_through machine code (prologueCode context size) machine.entry _
    hprologue
  rw [← hcode] at hrun
  have hholds : Holds context machine size store
      (fun access => context.body.Live access (context.body.start store).point) after := by
    refine ⟨hframed, by rw [hafter, hglobals], fun _ _ hword => ?_⟩
    rw [hglobals] at hword
    cases hword
  have hbeside : Beside context session machine size store (context.body.start store)
      ⟨code, after⟩ := by
    refine ⟨⟨0, rfl⟩, .start wf.blocks_pos, ?_, hholds, hmade.trans hcalls⟩
    rw [Body.stmts_eq_start wf.blocks_pos] at hstmts
    exact hstmts
  have hsame := System.same_of_simulation
    (fun config point (h : Beside context session machine size store config point) =>
      (h.keeping.2 : machine.execution.calls point = _))
    (fun config point h => h.step layout hlinked hcode hstmts hserved hunstuck) hbeside
  rw [System.behaviour_withResult] at hsame
  exact hsame.trans (System.same_of_going hrun).symm

end

end

/-! ## Methods -/

/-- There are sixteen registers. -/
theorem length_toList_le (registers : Std.ExtTreeSet Register) : registers.toList.length ≤ 16 := by
  have hnodup : registers.toList.Nodup := by
    refine Std.ExtTreeSet.distinct_toList.imp ?_
    rintro a b hne rfl
    exact hne Std.ReflCmp.compare_self
  refine hnodup.length_le_of_subset (fun register _ => ?_ : registers.toList ⊆ Register.all)
  cases register <;> decide

/-- **THE CODE OF A METHOD** behaves like the method, as long as nothing undefined
    is read. -/
theorem emitMethod_same {body : Body} (ready : body.Ready) {symbols : SymbolPool}
    {session last : Session} {function : Function}
    (hemit : emitMethod body symbols session = .ok (.ok function, last)) {machine : Machine}
    (hcode : machine.code = function.code) (hlinked : Linked last machine)
    (hcalls : machine.entry.calls = [])
    (hserved : Served machine (body.behaviour (machine.setting symbols last)
      ⟨fun _ => none, machine.entry.globals⟩))
    (hunstuck : (body.behaviour (machine.setting symbols last)
      ⟨fun _ => none, machine.entry.globals⟩).Unstuck) :
    Behaviour.Same (body.behaviour (machine.setting symbols last)
      ⟨fun _ => none, machine.entry.globals⟩).withResult machine.behaviour := by
  obtain ⟨name, frame, size, code, hframe, hsize, hfunction, hstmts⟩ :=
    emitMethod_code ready.wellFormed hemit
  have hcount := length_toList_le body.bindings.calleeSaved
  obtain ⟨hcovers, hsmall, -⟩ := Frame.allocationSize_covers hcount hsize
  have layout : Layout ⟨body, symbols, frame, name⟩ size :=
    ⟨ready, Frame.compute_laid hframe, hcovers, hsmall, hcount⟩
  exact emitted_same layout hlinked (hcode.trans hfunction) hstmts hserved rfl hcalls hunstuck

end Emission

end DecafBackend
