import DecafBackend.Proofs.EmittedStatements

/-! # Commands in machine code

    Where a statement of a body is performed, its code is run through and comes
    to the same: control goes on behind the code or to the label of a target,
    with everything in place that is still wanted there, or the run ends.

    * `Ending.withResult` — the end of a run as the caller sees it
    * `CommandMatched` — what the code of a command has to come to
    * `CommandCode.matched` — one statement
    * `through_prologueCode` — the start of a method -/

namespace DecafBackend

/-! ## Results -/

/-- How a run ends for a caller that looks for a result: where there is none, it
    finds zero. -/
def Outcome.withResult : Outcome → Outcome
  | .returned none => .returned (some 0)
  | .returned (some word) => .returned (some word)
  | .aborted abort => .aborted abort
  | .stuck => .stuck

/-- The end of a run for a caller that looks for a result. -/
def Ending.withResult (ending : Ending) : Ending :=
  { ending with outcome := ending.outcome.withResult }

/-- A behaviour for a caller that looks for a result. -/
def Behaviour.withResult (behaviour : Behaviour) : Behaviour := fun n =>
  { behaviour n with ending := (behaviour n).ending.map Ending.withResult }

namespace System

variable {σ : Type} (sys : System σ)

/-- A system for a caller that looks for a result. -/
def withResult : System σ where
  step s :=
    match sys.step s with
    | .going s' => .going s'
    | .ended ending => .ended ending.withResult
  calls := sys.calls
  calls_going {s s'} h := by
    cases hstep : sys.step s with
    | going next =>
        rw [hstep] at h
        cases h
        exact sys.calls_going hstep
    | ended ending => rw [hstep] at h; cases h
  calls_ended {s ending} h := by
    cases hstep : sys.step s with
    | going next => rw [hstep] at h; cases h
    | ended last =>
        rw [hstep] at h
        cases h
        exact (sys.calls_ended hstep : sys.calls s <:+ last.calls)

/-- For a caller that looks for a result, a run goes the same steps and ends with one. -/
theorem run_withResult (n : Nat) (s : σ) : sys.withResult.run n s =
    match sys.run n s with
    | .going s' => .going s'
    | .ended ending => .ended ending.withResult := by
  induction n generalizing s with
  | zero => rfl
  | succ n ih =>
      cases hstep : sys.step s with
      | going next =>
          have hresult : sys.withResult.step s = .going next := by
            simp only [withResult, hstep]
          rw [run_succ_going hresult, run_succ_going hstep, ih]
      | ended ending =>
          have hresult : sys.withResult.step s = .ended ending.withResult := by
            simp only [withResult, hstep]
          rw [run_succ_ended hresult, run_succ_ended hstep]

/-- A caller that looks for a result sees the same calls and traps. -/
theorem behaviour_withResult (s : σ) :
    sys.withResult.behaviour s = (sys.behaviour s).withResult := by
  funext n
  rw [Behaviour.withResult, behaviour, behaviour, run_withResult]
  cases sys.run n s with
  | going next => rfl
  | ended ending => rfl

end System

namespace Emission

open MachineState (Untouched)

section

variable {context : Context} {session : Session} {machine : Machine} {size : Int}
  {state after : MachineState}

/-! ## Statements -/

/-- The calls that were made when a command has been performed. -/
def callsAfter : Progress Config → List CallEvent
  | .going config => config.calls
  | .ended ending => ending.calls

/-- The machine has everything that is still wanted at a point of a run. -/
def Keeping (context : Context) (machine : Machine) (size : Int) (config : Config)
    (state : MachineState) : Prop :=
  Holds context machine size config.store (fun access => context.body.Live access config.point)
    state ∧ state.calls = config.calls

/-- What the code of a command has to come to; `config` is the point after it. -/
def CommandMatched (context : Context) (machine : Machine) (size : Int) (config : Config)
    (effect : Effect) : Progress Config → Prop
  | .going next => ∃ after, Keeping context machine size next after ∧
      ((effect = .next after ∧ next.point = config.point) ∨
        ∃ label target, effect = .jump (labelName label) after ∧
          context.body.labels[label.index]? = some (some target) ∧
          next.point = context.body.startOf target)
  | .ended ending => ending.outcome ≠ .stuck → effect = .ended ending.withResult

/-- A call that fails is no result. -/
theorem callOut_withResult {body : Body} {setting : Setting} {store : Store}
    {calls : List CallEvent} {target : Symbol} {args : List Loc} {ending : Ending}
    (h : body.callOut setting store calls target args = .error ending) :
    ending.withResult = ending := by
  rw [Body.callOut] at h
  split at h
  · rw [Body.callWith] at h
    split at h
    · cases h
    · cases h; rfl
  · cases h; rfl

/-- A value that cannot be computed is no result. -/
theorem evaluateValue_withResult {body : Body} {setting : Setting} {store : Store}
    {calls : List CallEvent} {value : Value} {ending : Ending}
    (h : body.evaluateValue setting store calls value = .error ending) :
    ending.withResult = ending := by
  cases value with
  | load src =>
      simp only [Body.evaluateValue] at h
      split at h
      · cases h
      · cases h; rfl
  | param inst index => cases h
  | unary inst op operand =>
      simp only [Body.evaluateValue] at h
      split at h
      · cases h
      · cases h; rfl
  | binary inst op lhs rhs =>
      simp only [Body.evaluateValue] at h
      split at h
      · split at h
        · cases h
        · cases h; rfl
      · cases h; rfl
  | call inst target args isExternal saved => exact callOut_withResult h

/-- A jump takes everything along that is wanted at its target. -/
theorem commandMatched_goTo {config : Config} {stmt : Inst} {command : Command} {label : Label}
    (hcommand : context.body.command? stmt = some command) (hdest : command.dest? = none)
    (hlabel : command.target? = some label)
    (h : Holds context machine size config.store (fun access =>
      context.body.Live access ⟨config.block, stmt :: config.rest⟩) after)
    (hcalls : after.calls = config.calls) :
    CommandMatched context machine size config (.jump (labelName label) after)
      (context.body.goTo config label) := by
  rw [Body.goTo]
  split
  · next target hplaced =>
      refine ⟨after, ⟨h.mono fun hlive => ?_, hcalls⟩, Or.inr ⟨label, target, rfl, hplaced, rfl⟩⟩
      refine hlive.back (.jump hcommand hlabel hplaced) ?_
      refine Body.not_writes_of_dest rfl hcommand ?_
      rw [hdest]
      exact fun heq => by cases heq
  · exact fun hstuck => absurd rfl hstuck

/-- A statement that writes nothing takes everything along. -/
theorem keeping_fall {config : Config} {stmt : Inst} {command : Command}
    (hcommand : context.body.command? stmt = some command) (hdest : command.dest? = none)
    (hfalls : command.isTerminator = false)
    (h : Holds context machine size config.store (fun access =>
      context.body.Live access ⟨config.block, stmt :: config.rest⟩) after)
    (hcalls : after.calls = config.calls) : Keeping context machine size config after := by
  refine ⟨h.mono fun hlive => ?_, hcalls⟩
  refine hlive.back (.fall hcommand hfalls) ?_
  refine Body.not_writes_of_dest rfl hcommand ?_
  rw [hdest]
  exact fun heq => by cases heq

section

variable {config : Config} {stmt : Inst} {command : Command} {code : List Instruction}
  (hat : context.body.At config.block (stmt :: config.rest))
  (hcommand : context.body.command? stmt = some command)
  (h : Holds context machine size config.store (fun access =>
    context.body.Live access ⟨config.block, stmt :: config.rest⟩) state)
  (layout : Layout context size) (hlinked : Linked session machine)
  (hcalls : state.calls = config.calls)
include hat hcommand h layout hlinked hcalls

omit hat h layout hlinked hcalls in
/-- What a statement reads is live in front of it. -/
theorem live_reads {access : Access} (haccess : access ∈ command.reads stmt) :
    context.body.Live access ⟨config.block, stmt :: config.rest⟩ :=
  .of_reads ⟨stmt, config.rest, command, rfl, hcommand, haccess⟩

/-- A save computes its value and stores it where it will be read. -/
theorem matched_save {value : Value} {dest : Loc} (hsave : command = .save value dest)
    {register : Register} {operand : Operand}
    (hvalue : ValueCode context session value register code)
    (hplaces : Places context session ⟨stmt, dest⟩ operand)
    (htakes : ∀ {event : CallEvent}, event :: config.calls = callsAfter
      (context.body.perform (machine.setting context.symbols session) config command) →
      Takes machine config.calls event) :
    CommandMatched context machine size config
      (machine.through state (code ++ storeCode operand register))
      (context.body.perform (machine.setting context.symbols session) config command) := by
  subst hsave
  have hready := layout.ready
  have hsaves : context.body.Saves stmt dest := ⟨value, hcommand⟩
  have hmem : stmt ∈ context.body.stmts := Body.mem_stmts_of_stmtsOf hat.mem
  -- what is wanted behind the value is what is live behind the save, but for its
  -- destination
  let behind : Access → Prop := fun access =>
    context.body.Live access ⟨config.block, config.rest⟩ ∧ access.loc ≠ dest
  have hbehind : ∀ {access : Access}, behind access →
      context.body.Live access ⟨config.block, stmt :: config.rest⟩ := by
    rintro access ⟨hlive, hne⟩
    refine hlive.back (.fall hcommand rfl) (Body.not_writes_of_dest rfl hcommand ?_)
    exact fun heq => hne (Option.some.inj heq).symm
  have hisCall : ∀ {inst : Inst} {target : Symbol} {args : List Loc} {isExternal : Bool}
      {saved : List Register}, value = .call inst target args isExternal saved →
        context.body.CallsSaving stmt saved := by
    rintro inst target args isExternal saved rfl
    exact ⟨_, inst, target, args, isExternal, hcommand, rfl,
      (Body.command?_eq_some.mp hcommand).2⟩
  have hcomputable : Computable context machine behind value := by
    refine ⟨?_, fun heq => hready.saved hmem (hisCall heq), ?_⟩
    · rintro inst index rfl
      exact hready.params hmem hcommand
    · rintro inst target args isExternal saved access other heq ⟨hlive, hne⟩ htracks hbound hcaller
      refine hready.keeps.preserved hat (hisCall heq) htracks hlive ?_ hbound hcaller
      rintro ⟨value', hother⟩
      cases hcommand.symm.trans hother
      exact hne rfl
  have hredirects : Redirects context.body stmt dest behind fun access =>
      context.body.Live access ⟨config.block, config.rest⟩ := by
    refine ⟨fun hlive hloc htracks => hready.keeps.same hat hsaves htracks hlive hloc, ?_⟩
    exact fun hlive htracks hne =>
      ⟨⟨hlive, hne⟩, hready.keeps.apart hat hsaves htracks hlive hne⟩
  have hmatched := hvalue.holds h layout hlinked
    (fun access haccess => live_reads hcommand haccess) hbehind hcomputable (by
      intro event hevent
      rw [hcalls] at hevent ⊢
      refine htakes (hevent.trans ?_)
      rw [Body.perform]
      cases context.body.evaluateValue (machine.setting context.symbols session) config.store
          config.calls value with
      | error ending => rfl
      | ok reached =>
          dsimp only
          cases context.body.write (machine.setting context.symbols session) reached.store dest
            reached.value <;> rfl)
  rw [hcalls] at hmatched
  rw [Body.perform]
  -- a value that fails ends the run, or its word is stored
  cases hresult : context.body.evaluateValue (machine.setting context.symbols session) config.store
      config.calls value with
  | error ending =>
      rw [hresult] at hmatched
      intro hstuck
      rw [Machine.through_append_ended (hmatched hstuck), evaluateValue_withResult hresult]
  | ok reached =>
      rw [hresult] at hmatched
      obtain ⟨middle, hthrough, hword, hholds, hmade⟩ := hmatched
      dsimp only
      cases hwrite : context.body.write (machine.setting context.symbols session) reached.store dest
          reached.value with
      | none => exact fun hstuck => absurd rfl hstuck
      | some store =>
          obtain ⟨after, hstore, hholds', hsame⟩ :=
            hholds.stored layout hlinked hredirects hplaces hword hwrite
          exact ⟨after, ⟨hholds', hsame.trans hmade⟩,
            Or.inl ⟨(Machine.through_append hthrough _).trans hstore, rfl⟩⟩

/-- A call comes back with everything that is wanted, or ends as it should. -/
theorem matched_call {target : Symbol} {args : List Loc} {isExternal : Bool}
    {saved : List Register} (hcall : command = .call target args isExternal saved)
    (hcode : CallCode context session stmt target args isExternal saved code)
    (htakes : ∀ {event : CallEvent}, event :: config.calls = callsAfter
      (context.body.perform (machine.setting context.symbols session) config command) →
      Takes machine config.calls event) :
    CommandMatched context machine size config (machine.through state code)
      (context.body.perform (machine.setting context.symbols session) config command) := by
  subst hcall
  have hready := layout.ready
  have hcalls' : context.body.CallsSaving stmt saved :=
    ⟨_, stmt, target, args, isExternal, hcommand, rfl, Body.command?_eq_some.mp hcommand⟩
  rw [Body.perform, Body.callOut] at htakes ⊢
  cases hwords : args.mapM (context.body.read (machine.setting context.symbols session)
      config.store) with
  | none => exact fun hstuck => absurd rfl hstuck
  | some words =>
      rw [hwords] at htakes
      dsimp only at htakes ⊢
      have htaken : Takes machine config.calls
          ⟨(machine.setting context.symbols session).routine target, words,
            config.store.globals⟩ := by
        refine htakes ?_
        rw [Body.callWith]
        cases ((machine.setting context.symbols session).environment _).result with
        | ok result => rfl
        | error abort => rfl
      have hmatched := hcode.holds h layout hlinked
        (fun arg harg => live_reads hcommand (List.mem_map.mpr ⟨arg, harg, rfl⟩))
        (fun {access} (hlive : context.body.Live access ⟨config.block, config.rest⟩) =>
          hlive.back (.fall hcommand rfl) (Body.not_writes_of_dest rfl hcommand
            fun heq => by cases heq))
        (hready.saved (Body.mem_stmts_of_stmtsOf hat.mem) hcalls')
        (fun hlive htracks hbound hcaller =>
          hready.keeps.preserved hat hcalls' htracks hlive (fun hsaves => by
            obtain ⟨value, hother⟩ := hsaves
            cases hcommand.symm.trans hother) hbound hcaller)
        hwords (hcalls ▸ htaken)
      rw [hcalls] at hmatched
      cases hresult : Body.callWith (machine.setting context.symbols session) config.store
          config.calls target words with
      | ok reached =>
          rw [hresult] at hmatched
          obtain ⟨after, hthrough, -, hholds, hcalls⟩ := hmatched
          exact ⟨after, ⟨hholds, hcalls⟩, Or.inl ⟨hthrough, rfl⟩⟩
      | error ending =>
          rw [hresult] at hmatched
          intro _
          have hfails : context.body.callOut (machine.setting context.symbols session)
              config.store config.calls target args = .error ending := by
            rw [Body.callOut, hwords, ← hresult]
          rw [callOut_withResult hfails]
          exact hmatched

omit hat in
/-- A jump under a condition goes on or goes to its target. -/
theorem matched_branch {cond : Access} {target : Label} (hbranch : command = .branch cond target)
    {register : Register} {pool : ScratchPool}
    (hreads : Reads context session cond {} register pool code) :
    CommandMatched context machine size config
      (machine.through state
        (code ++ [.alu .cmp (.reg register) (.imm 0), .jcc .e (labelName target)]))
      (context.body.perform (machine.setting context.symbols session) config command) := by
  subst hbranch
  rw [Body.perform]
  -- a read of nothing ends the run of the body, and is not to be matched
  cases hword : context.body.read (machine.setting context.symbols session) config.store
      cond.loc with
  | none => exact fun hstuck => absurd rfl hstuck
  | some word =>
      obtain ⟨middle, hthrough, hvalue, huntouched, -⟩ := hreads.through
        (h.supplies layout hlinked (live_reads hcommand List.mem_cons_self) hword)
      let compared := middle.flag (some (middle.registers register, 0))
      have hholds := h.untouched layout (huntouched.flag (some (middle.registers register, 0)))
      have hmade : compared.calls = config.calls := huntouched.calls.trans hcalls
      have heffect : machine.through state
          (code ++ [.alu .cmp (.reg register) (.imm 0), .jcc .e (labelName target)]) =
          if word = 0 then .jump (labelName target) compared else .next compared := by
        rw [Machine.through_append hthrough]
        show machine.through compared [.jcc .e (labelName target)] = _
        by_cases hzero : word = 0
        · simp only [Machine.through, Machine.effect, compared, MachineState.flag_compared, hvalue,
            Condition.holds, decide_eq_true_eq, if_pos hzero]
        · simp only [Machine.through, Machine.effect, compared, MachineState.flag_compared, hvalue,
            Condition.holds, decide_eq_true_eq, if_neg hzero]
      rw [heffect]
      dsimp only
      split
      · exact commandMatched_goTo hcommand rfl rfl hholds hmade
      · exact ⟨compared, keeping_fall hcommand rfl rfl hholds hmade, Or.inl ⟨rfl, rfl⟩⟩

omit hat in
/-- A return of a value returns it. -/
theorem matched_ret {value : Access} (hret : command = .ret (some value))
    {register : Register} {pool : ScratchPool}
    (hreads : Reads context session value {} register pool code) :
    CommandMatched context machine size config
      (machine.through state (code ++ .mov (.reg .rax) (.reg register) :: epilogueCode context))
      (context.body.perform (machine.setting context.symbols session) config command) := by
  subst hret
  rw [Body.perform]
  cases hword : context.body.read (machine.setting context.symbols session) config.store
      value.loc with
  | none => exact fun hstuck => absurd rfl hstuck
  | some word =>
      obtain ⟨middle, hthrough, hvalue, huntouched, -⟩ := hreads.through
        (h.supplies layout hlinked (live_reads hcommand List.mem_cons_self) hword)
      let moved := middle.set .rax (middle.registers register)
      have hmoved : Untouched state moved := huntouched.set rfl _
      have hframed := (h.untouched layout hmoved).framed
      intro _
      rw [Machine.through_append hthrough]
      show machine.through moved (epilogueCode context) = _
      rw [hframed.through_epilogueCode layout, hmoved.stop]
      show Effect.ended ⟨.returned (some (moved.registers .rax)), state.globals, state.calls⟩ = _
      rw [MachineState.set_same, hvalue, h.globals, hcalls]
      rfl

omit hat hcommand hlinked in
/-- A return without a value returns zero. -/
theorem matched_retNone (hret : command = .ret none) :
    CommandMatched context machine size config
      (machine.through state (.alu .xor (.reg .rax) (.reg .rax) :: epilogueCode context))
      (context.body.perform (machine.setting context.symbols session) config command) := by
  subst hret
  intro _
  let cleared := (state.flag none).set .rax (state.registers .rax ^^^ state.registers .rax)
  have hcleared : Untouched state cleared := ((Untouched.refl state).flag _).set rfl _
  have hframed := (h.untouched layout hcleared).framed
  show machine.through cleared (epilogueCode context) = _
  rw [hframed.through_epilogueCode layout, hcleared.stop]
  show Effect.ended ⟨.returned (some (cleared.registers .rax)), state.globals, state.calls⟩ = _
  rw [MachineState.set_same, Int64.xor_self, h.globals, hcalls]
  rfl

omit hat hcommand layout hlinked in
/-- The end of the process has the code that it should have. -/
theorem matched_exit {exit : Int32} (hexit : command = .exit exit)
    (hexits : machine.callee config.calls exitRoutine = .exits) :
    CommandMatched context machine size config
      (machine.through state [.alu .xor (.reg .rax) (.reg .rax),
        .mov (.reg .rdi) (.imm (Int64.ofInt exit.toInt)), .call exitRoutine])
      (context.body.perform (machine.setting context.symbols session) config command) := by
  subst hexit
  intro _
  let last := ((state.flag none).set .rax (state.registers .rax ^^^ state.registers .rax)).set .rdi
    (Int64.ofInt exit.toInt)
  have hcode : (last.registers .rdi).toInt32 = exit := by
    rw [MachineState.set_same, Int64.toInt32_ofInt, Int32.ofInt_toInt]
  have hthrough : machine.through state [.alu .xor (.reg .rax) (.reg .rax),
      .mov (.reg .rdi) (.imm (Int64.ofInt exit.toInt)), .call exitRoutine] =
      machine.through last [.call exitRoutine] := rfl
  have hcallee : machine.callee last.calls exitRoutine = .exits := by
    rw [← hcalls] at hexits
    exact hexits
  rw [hthrough, Machine.through, Machine.effect, Machine.callOut, hcallee]
  dsimp only
  rw [hcode]
  show Effect.ended ⟨_, state.globals, state.calls⟩ = _
  rw [h.globals, hcalls]
  rfl

/-- **STATEMENTS RUN AS THEIR CODE**. -/
theorem CommandCode.matched (hcode : CommandCode context session stmt command code)
    (htakes : ∀ {event : CallEvent}, event :: config.calls = callsAfter
      (context.body.perform (machine.setting context.symbols session) config command) →
      Takes machine config.calls event)
    (hexits : ∀ {exit : Int32}, command = .exit exit →
      machine.callee config.calls exitRoutine = .exits) :
    CommandMatched context machine size config (machine.through state code)
      (context.body.perform (machine.setting context.symbols session) config command) := by
  cases hcode with
  | save hvalue hplaces =>
      exact matched_save hat hcommand h layout hlinked hcalls rfl hvalue hplaces htakes
  | call hcall => exact matched_call hat hcommand h layout hlinked hcalls rfl hcall htakes
  | use loc => exact ⟨state, keeping_fall hcommand rfl rfl h hcalls, Or.inl ⟨rfl, rfl⟩⟩
  | label place => exact ⟨state, keeping_fall hcommand rfl rfl h hcalls, Or.inl ⟨rfl, rfl⟩⟩
  | jump target => exact commandMatched_goTo hcommand rfl rfl h hcalls
  | branch hreads => exact matched_branch hcommand h layout hlinked hcalls rfl hreads
  | ret => exact matched_retNone h layout hcalls rfl
  | retValue hreads => exact matched_ret hcommand h layout hlinked hcalls rfl hreads
  | exit code => exact matched_exit h hcalls rfl (hexits rfl)

end

/-! ## The start of a method -/

/-- Stores of registers into the frame. -/
theorem through_stores {stores : List (Int × Register)} {fp : Word}
    (hrbp : state.registers .rbp = fp) (hnodup : (stores.map Prod.fst).Nodup)
    (hnear : ∀ store ∈ stores, -4294967296 ≤ store.1 ∧ store.1 ≤ 0) :
    ∃ after, machine.through state (stores.map fun store =>
        .mov (.frame store.1) (.reg store.2)) = .next after ∧
      after.registers = state.registers ∧ after.globals = state.globals ∧
      after.calls = state.calls ∧
      (∀ store ∈ stores, after.stack (shifted fp store.1) = state.registers store.2) ∧
      ∀ offset : Int, -4294967296 ≤ offset → offset ≤ 1152921504606846976 →
        (∀ store ∈ stores, store.1 ≠ offset) →
          after.stack (shifted fp offset) = state.stack (shifted fp offset) := by
  -- by induction on the stores, whose slots differ, so that a later one undoes none
  induction stores generalizing state with
  | nil =>
      refine ⟨state, rfl, rfl, rfl, rfl, ?_, fun _ _ _ _ => rfl⟩
      intro store hstore
      cases hstore
  | cons store stores ih =>
      rw [List.map_cons, List.nodup_cons] at hnodup
      let next := state.put (shifted fp store.1) (state.registers store.2)
      have heffect : machine.effect state (.mov (.frame store.1) (.reg store.2)) = .next next := by
        show Effect.next (state.put (shifted (state.registers .rbp) store.1) _) = _
        rw [hrbp]
        rfl
      obtain ⟨after, hthrough, hregisters, hglobals, hcalls, hstored, hothers⟩ :=
        @ih next hrbp hnodup.2 fun other hother => hnear other (List.mem_cons_of_mem _ hother)
      have hnear' := hnear store List.mem_cons_self
      refine ⟨after, (Machine.through_cons heffect _).trans hthrough, hregisters, hglobals, hcalls,
        ?_, ?_⟩
      · intro other hother
        rcases List.mem_cons.mp hother with rfl | hother
        · rw [hothers other.1 hnear'.1 (by omega)]
          · exact MachineState.put_same _ _ _
          · intro store' hstore' heq
            exact hnodup.1 (List.mem_map.mpr ⟨store', hstore', heq⟩)
        · exact hstored other hother
      · intro offset hlow hhigh hne
        rw [hothers offset hlow hhigh fun other hother =>
          hne other (List.mem_cons_of_mem _ hother)]
        refine MachineState.put_other _ _ _ fun heq => ?_
        exact hne store List.mem_cons_self (shifted_injective heq.symm (by omega))

/-- To take a distance away goes as far down. -/
theorem shifted_sub_ofInt (address : Word) (distance : Int) :
    address - Int64.ofInt distance = shifted address (-distance) := by
  rw [shifted, Int64.ofInt_neg, Int64.sub_eq_add_neg]

/-- The frame takes its place on the stack. -/
theorem through_allocate {fp : Word} (hrsp : state.registers .rsp = fp) (hsize : 0 ≤ size) :
    ∃ compared, machine.through state
      (if 0 < size then [.alu .sub (.reg .rsp) (.imm (Int64.ofInt size))] else []) =
        .next ((state.flag compared).set .rsp (shifted fp (-size))) := by
  split
  · refine ⟨none, ?_⟩
    show Effect.next ((state.flag none).set .rsp (state.registers .rsp - Int64.ofInt size)) = _
    rw [hrsp, shifted_sub_ofInt]
  · obtain rfl : size = 0 := by omega
    refine ⟨state.compared, ?_⟩
    have hself := (state.flag state.compared).set_self .rsp
    rw [MachineState.flag_registers, hrsp] at hself
    rw [Int.neg_zero, shifted_zero, hself]
    rfl

/-- The slots of the arguments that come in registers are next to one another
    below the frame pointer. -/
theorem Layout.param_slots (layout : Layout context size) :
    ((context.frame.params.zip Register.arguments).map Prod.fst).Nodup ∧
      ∀ store ∈ context.frame.params.zip Register.arguments, -48 ≤ store.1 ∧ store.1 < 0 := by
  have hcount : Nat.min context.body.params.length Register.arguments.length ≤ 6 :=
    Nat.min_le_right _ _
  have hparams := layout.laid.params
  generalize Nat.min context.body.params.length Register.arguments.length = count at *
  constructor
  · rw [List.map_fst_zip (by rw [hparams, List.length_map, List.length_range]; exact hcount),
      hparams]
    exact List.Pairwise.map _ (fun i j hne heq => hne (by omega)) List.nodup_range
  · intro store hstore
    have hmem := (List.of_mem_zip hstore).1
    rw [hparams] at hmem
    obtain ⟨i, hi, hoffset⟩ := List.mem_map.mp hmem
    rw [List.mem_range] at hi
    omega

/-- An argument that comes in a register has a slot. -/
theorem Layout.param_mem (layout : Layout context size) {i : Nat}
    (hi : i < Nat.min context.body.params.length Register.arguments.length) :
    ∃ register, Register.arguments[i]? = some register ∧
      (-(8 * (i + 1) : Int), register) ∈ context.frame.params.zip Register.arguments := by
  have hlt : i < Register.arguments.length := Nat.lt_of_lt_of_le hi (Nat.min_le_right _ _)
  have hregister := List.getElem?_eq_getElem hlt
  refine ⟨_, hregister, List.mem_of_getElem? (i := i) ?_⟩
  refine List.getElem?_zip_eq_some.mpr ⟨?_, hregister⟩
  rw [layout.laid.params, List.getElem?_map, List.getElem?_range hi]
  rfl

/-- The frame is there with the arguments, and no register has been preserved
    yet. -/
structure Opened (context : Context) (machine : Machine) (size : Int) (state : MachineState) :
    Prop where
  rbp : state.registers .rbp = machine.framePointer
  rsp : state.registers .rsp = shifted machine.framePointer (-size)
  registers : ∀ {register : Register}, register ≠ .rsp → register ≠ .rbp →
    state.registers register = machine.entry.registers register
  link : state.stack machine.framePointer = machine.entry.registers .rbp
  above : ∀ {offset : Int}, 8 ≤ offset → offset ≤ 1152921504606846976 →
    state.stack (shifted machine.framePointer offset) =
      machine.entry.stack (shifted machine.framePointer offset)
  params : ∀ {i : Nat}, i < Nat.min context.body.params.length Register.arguments.length →
    state.stack (shifted machine.framePointer (-(8 * (i + 1) : Int))) = machine.incoming i
  globals : state.globals = machine.entry.globals
  calls : state.calls = machine.entry.calls

/-- The frame takes its place, and the arguments that come in registers go into
    their slots. -/
theorem Layout.through_opening (layout : Layout context size) :
    ∃ after, machine.through machine.entry
        (.push (.reg .rbp) :: .mov (.reg .rbp) (.reg .rsp) ::
        ((if 0 < size then [.alu .sub (.reg .rsp) (.imm (Int64.ofInt size))] else []) ++
        (context.frame.params.zip Register.arguments).map (fun param =>
          .mov (.frame param.1) (.reg param.2)))) = .next after ∧
      Opened context machine size after := by
  have hsize : 0 ≤ size := by
    have := layout.covers
    omega
  let linked := (Machine.pushed machine.entry (machine.entry.registers .rbp)).set .rbp
    machine.framePointer
  have hlinked : linked.stack = (machine.entry.put machine.framePointer
      (machine.entry.registers .rbp)).stack := rfl
  obtain ⟨compared, hallocate⟩ :=
    @through_allocate machine size linked machine.framePointer rfl hsize
  let allocated := (linked.flag compared).set .rsp (shifted machine.framePointer (-size))
  obtain ⟨hnodup, hslots⟩ := layout.param_slots
  obtain ⟨stored, hstored, hregisters, hglobals, hcalls, hwords, hothers⟩ :=
    @through_stores machine allocated (context.frame.params.zip Register.arguments)
      machine.framePointer rfl hnodup (fun store hstore => by
        have := hslots store hstore
        omega)
  -- registers other than those of the stack are as at the entry
  have hkept : ∀ {register : Register}, register ≠ .rsp → register ≠ .rbp →
      allocated.registers register = machine.entry.registers register := by
    intro register hrsp hrbp
    rw [MachineState.set_other _ _ _ hrsp, MachineState.flag_registers,
      MachineState.set_other _ _ _ hrbp]
    exact MachineState.set_other _ _ _ hrsp
  -- all stores are below the frame pointer, so what is above it stays
  have hstack : ∀ {offset : Int}, 0 ≤ offset → offset ≤ 1152921504606846976 →
      stored.stack (shifted machine.framePointer offset) =
        linked.stack (shifted machine.framePointer offset) := by
    intro offset hlow hhigh
    refine hothers offset (by omega) hhigh fun store hstore => ?_
    have := hslots store hstore
    omega
  refine ⟨stored, ?_, ?_, ?_, ?_, ?_, ?_, ?_, hglobals, hcalls⟩
  · exact (Machine.through_append hallocate _).trans hstored
  · rw [hregisters]
    rfl
  · rw [hregisters]
    exact MachineState.set_same _ _ _
  · intro register hrsp hrbp
    rw [hregisters, hkept hrsp hrbp]
  · have hzero := hstack (Int.le_refl 0) (by omega)
    rw [shifted_zero] at hzero
    rw [hzero, hlinked, MachineState.put_same]
  · intro offset hlow hhigh
    rw [hstack (by omega) hhigh, hlinked]
    refine MachineState.put_other _ _ _ fun heq => ?_
    have hzero : shifted machine.framePointer offset = shifted machine.framePointer 0 :=
      heq.trans (shifted_zero _).symm
    have := shifted_injective hzero (by omega)
    omega
  · intro i hi
    obtain ⟨register, hregister, hmem⟩ := layout.param_mem hi
    have hne : register ≠ .rsp ∧ register ≠ .rbp := by
      have hall : ∀ register ∈ Register.arguments, register ≠ .rsp ∧ register ≠ .rbp := by decide
      exact hall _ (List.mem_of_getElem? hregister)
    rw [hwords _ hmem, hkept hne.1 hne.2, Machine.incoming, hregister]

/-- **THE FRAME IS SET UP** at the start of a method. -/
theorem through_prologueCode (layout : Layout context size) :
    ∃ after, machine.through machine.entry (prologueCode context size) = .next after ∧
      Framed context machine size after ∧ after.globals = machine.entry.globals ∧
      after.calls = machine.entry.calls := by
  have hleast := layout.laid.least
  have hcovers := layout.covers
  have hsmall := layout.small
  have hcount := layout.count
  obtain ⟨opened, hopening, hopened⟩ := @Layout.through_opening context machine size layout
  -- what is saved is neither used by the emitter nor the stack pointer
  have hallocatable : ∀ register ∈ context.calleeSaved, register.isOwn = false ∧
      register ≠ .rsp := by
    intro register hregister
    have hpreserved := (layout.ready.preserved register (Std.ExtTreeSet.mem_toList.mp hregister)).1
    refine ⟨Register.not_isOwn hpreserved, ?_⟩
    rintro rfl
    cases hpreserved
  obtain ⟨pushed, hpushed, hgrown⟩ := @through_pushAll machine _ _ _ _ hopened.rsp
    (by omega) (by omega) hallocatable
  have hwords : (context.calleeSaved.map opened.registers).reverse =
      context.calleeSaved.reverse.map machine.entry.registers := by
    rw [List.map_reverse]
    refine congrArg List.reverse (List.map_congr_left fun register hregister => ?_)
    refine hopened.registers (hallocatable register hregister).2 ?_
    rintro rfl
    exact layout.not_mem rfl hregister
  have hbase : -size - 8 * ((context.calleeSaved.map opened.registers).reverse.length : Int) =
      baseOf context size := by
    rw [List.length_reverse, List.length_map, baseOf]
    omega
  have hrsp := hgrown.rsp
  have hkept := hgrown.words
  rw [hbase] at hrsp hkept
  refine ⟨pushed, ?_, ⟨?_, hrsp, ?_, ?_, ?_, hwords ▸ hkept, ?_⟩,
    hgrown.globals.trans hopened.globals, hgrown.calls.trans hopened.calls⟩
  · rw [← hpushed, ← Machine.through_append hopening, prologueCode]
    simp only [List.cons_append, List.append_assoc]
  · rw [hgrown.registers rfl (by decide), hopened.rbp]
  · have hzero := hgrown.above (show atFrame (-size) 0 from ⟨by omega, by omega⟩)
    rw [shifted_zero] at hzero
    rw [hzero, hopened.link]
  · intro offset hlow hhigh
    rw [hgrown.above ⟨by omega, hhigh⟩, hopened.above hlow hhigh]
  · intro i hi
    rw [hgrown.above ⟨by omega, by omega⟩, hopened.params hi]
  · intro register hsaved _ hne hne'
    have hown : register.isOwn = false := by
      cases hown : register.isOwn with
      | false => rfl
      | true => cases hsaved.symm.trans (Register.isCallerSaved_of_isOwn hown)
    rw [hgrown.registers hown hne, hopened.registers hne hne']

end

end Emission

end DecafBackend
