import DecafBackend.Proofs.DeadSavesEdits

/-! # Dead saves are deleted soundly

    Along a run, the body that is left has the same contents of every location
    that is still live.  What a deleted save computes is lost, and with it the
    trap or the undefined read that it might have come to, so only runs that do
    not fail are kept.

    * `Behaviour.Unfailing` — runs that do not fail
    * `Beside.perform`, `Beside.performCall` — statements that are left
    * `Match`, `Match.step` — the two runs side by side
    * `eliminateDeadSaves_swept` — dead saves are deleted soundly -/

namespace DecafBackend

/-! ## Runs that do not fail -/

/-- The run does not end with a trap, nor where something undefined is read. -/
def Behaviour.Unfailing (behaviour : Behaviour) : Prop :=
  ∀ ending, behaviour.Ends ending → ending.outcome ≠ .stuck ∧ ending.outcome ≠ .aborted .trap

/-- A run that does the same is as free of failures. -/
theorem Behaviour.Unfailing.of_same {a b : Behaviour} (h : a.Unfailing) (hsame : Same a b) :
    b.Unfailing := fun ending hends => h ending ((hsame.ends ending).mpr hends)

namespace System

variable {σ : Type} {sys : System σ} {s s' : σ}

/-- A run that does not fail does not fail later. -/
theorem unfailing_next (h : (sys.behaviour s).Unfailing) (hstep : sys.step s = .going s') :
    (sys.behaviour s').Unfailing := by
  intro ending hends
  obtain ⟨n, hn⟩ := ends_iff.mp hends
  refine h ending (ends_iff.mpr ⟨n + 1, ?_⟩)
  rw [run_succ_going hstep, hn]

theorem unfailing_ended {ending : Ending} (h : (sys.behaviour s).Unfailing)
    (hstep : sys.step s = .ended ending) :
    ending.outcome ≠ .stuck ∧ ending.outcome ≠ .aborted .trap :=
  h ending (ends_iff.mpr ⟨1, run_succ_ended hstep 0⟩)

end System

namespace Body

variable {setting : Setting} {body body' : Body}

/-! ## Contents that agree -/

/-- A location reads the same if the fields are the same, and the variables that
    are read. -/
theorem read_agrees (hlocations : body'.locations = body.locations) {store store' : Store}
    (hglobals : store'.globals = store.globals) {loc : Loc}
    (hlocals : body.tracks loc = true → store'.locals loc = store.locals loc) :
    body'.read setting store' loc = body.read setting store loc := by
  rw [read, read, hlocations]
  cases hlocation : body.locations[loc.index]? with
  | none => rfl
  | some location =>
      have htracks : location.isAllocatable = true → body.tracks loc = true := by
        intro h
        rw [tracks, hlocation]
        exact h
      cases location with
      | global name => exact congrArg (fun globals : Globals => some (globals _)) hglobals
      | localVar name => exact hlocals (htracks rfl)
      | temp => exact hlocals (htracks rfl)
      | constant | literal => rfl

/-- A write of the same word keeps all contents the same that were. -/
theorem write_agrees (hlocations : body'.locations = body.locations) {store store' written : Store}
    (hglobals : store'.globals = store.globals) {dest : Loc} {word : Word}
    (h : body.write setting store dest word = some written) :
    ∃ written', body'.write setting store' dest word = some written' ∧
      written'.globals = written.globals ∧ ∀ loc, body.tracks loc = true →
        (loc ≠ dest → store'.locals loc = store.locals loc) →
        written'.locals loc = written.locals loc := by
  obtain ⟨location, hlocation, hwrite⟩ := Option.bind_eq_some_iff.mp h
  rw [write, hlocations, hlocation]
  -- the write changes the same location on both sides
  have hlocal : ∀ loc, (loc ≠ dest → store'.locals loc = store.locals loc) →
      (store'.setLocal dest word).locals loc = (store.setLocal dest word).locals loc := by
    intro loc hsame
    by_cases heq : loc = dest
    · subst heq
      rw [Store.setLocal_locals_same, Store.setLocal_locals_same]
    · rw [Store.setLocal_locals_other heq, Store.setLocal_locals_other heq, hsame heq]
  cases location with
  | global name =>
      cases hwrite
      refine ⟨_, rfl, ?_, fun loc htracks hsame => hsame ?_⟩
      · simp only [Store.setGlobal, hglobals]
      · rintro rfl
        rw [tracks, hlocation] at htracks
        cases htracks
  | localVar name => cases hwrite; exact ⟨_, rfl, hglobals, fun loc _ => hlocal loc⟩
  | temp => cases hwrite; exact ⟨_, rfl, hglobals, fun loc _ => hlocal loc⟩
  | constant | literal => cases hwrite

/-- A write of a variable changes that variable only. -/
theorem write_tracked {store written : Store} {dest : Loc} {word : Word}
    (htracks : body.tracks dest = true) (h : body.write setting store dest word = some written) :
    written = store.setLocal dest word := by
  obtain ⟨location, hlocation, hwrite⟩ := Option.bind_eq_some_iff.mp h
  rw [tracks, hlocation] at htracks
  cases location with
  | localVar | temp => exact (Option.some.inj hwrite).symm
  | global | constant | literal => cases htracks

/-- A tracked location is read from the variables. -/
theorem read_tracked {loc : Loc} (htracks : body.tracks loc = true) (store : Store) :
    body.read setting store loc = store.locals loc := by
  rw [tracks] at htracks
  rw [read]
  cases hlocation : body.locations[loc.index]? with
  | none => rw [hlocation] at htracks; cases htracks
  | some location =>
      rw [hlocation] at htracks
      cases location with
      | localVar | temp => rfl
      | global | constant | literal => cases htracks

/-- A save goes on with the next statement. -/
theorem perform_save_point {config next : Config} {value : Value} {dest : Loc}
    (h : body.perform setting config (.save value dest) = .going next) :
    next.point = config.point := by
  simp only [perform] at h
  split at h
  · cases h
  · split at h
    · cases h
      rfl
    · cases h

end Body

namespace DeadSaves

variable {setting : Setting} {body : Body} {dead : List Inst} {config config' : Config}

/-! ## Statements that are left -/

/-- The same place in a body and in what is left of it. -/
structure Beside (body : Body) (dead : List Inst) (config config' : Config) : Prop where
  block : config'.block = config.block
  rest : config'.rest = config.rest.flatMap (leftOf body dead)
  calls : config'.calls = config.calls
  globals : config'.store.globals = config.store.globals

/-- What a step has to find in the body that is left.  All variables that had
    the same contents have the same contents again, except for `lost`, and those
    that are `gained`. -/
def Follows (body : Body) (dead : List Inst) (store store' : Store) (gained lost : Option Loc) :
    Progress Config → Progress Config → Prop
  | .going next, .going next' => Beside body dead next next' ∧
      ∀ loc, body.tracks loc = true → lost ≠ some loc →
        (gained ≠ some loc → store'.locals loc = store.locals loc) →
        next'.store.locals loc = next.store.locals loc
  | .ended ending, .ended ending' => ending' = ending
  | _, _ => False

/-- Runs side by side end alike. -/
theorem Beside.stop (h : Beside body dead config config') (outcome : Outcome) :
    config'.stop outcome = config.stop outcome := by
  rw [Config.stop, Config.stop, h.globals, h.calls]

/-- Control goes to the start of a block. -/
theorem Beside.enter (h : Beside body dead config config') (block : Block) :
    Beside body dead (body.enter config block) ((sweep body dead).enter config' block) where
  block := rfl
  rest := stmtsOf_sweep block
  calls := h.calls
  globals := h.globals

/-- Runs side by side jump alike. -/
theorem Beside.goTo (h : Beside body dead config config') (label : Label) :
    Follows body dead config.store config'.store none none (body.goTo config label)
      ((sweep body dead).goTo config' label) := by
  rw [Body.goTo, Body.goTo, show (sweep body dead).labels = body.labels from rfl]
  cases body.labels[label.index]? with
  | none => exact h.stop _
  | some placed =>
      cases placed with
      | none => exact h.stop _
      | some block => exact ⟨h.enter block, fun _ _ _ hsame => hsame (fun h => by cases h)⟩

/-- Control leaves the end of a block. -/
theorem Beside.leave (h : Beside body dead config config') :
    Follows body dead config.store config'.store none none (body.leave config)
      ((sweep body dead).leave config') := by
  have hnext : (sweep body dead).next? config'.block = body.next? config.block := by
    rw [Body.next?, Body.next?, h.block, show (sweep body dead).blocks.size = body.blocks.size from
      Body.size_mapStmts _]
  rw [Body.leave, Body.leave, hnext]
  cases body.next? config.block with
  | none => exact h.stop _
  | some block => exact ⟨h.enter block, fun _ _ _ hsame => hsame (fun h => by cases h)⟩

/-- A save that is left does the same, if it reads the same. -/
theorem Beside.performSave (h : Beside body dead config config') {stmt : Inst} {value : Value}
    {dest : Loc} (hvalid : Command.Valid body stmt (.save value dest))
    (hreads : ∀ access ∈ value.reads,
      (sweep body dead).read setting config'.store access.loc =
        body.read setting config.store access.loc) :
    Follows body dead config.store config'.store (some dest) none
      (body.perform setting config (.save value dest))
      ((sweep body dead).perform setting config' (.save value dest)) := by
  have hvalue := @Body.evaluateValue_agrees setting body (sweep body dead) _ _ h.globals id value
    hreads config.calls
  rw [Value.mapLocs_id] at hvalue
  obtain ⟨location, hlocation, hwritable⟩ := hvalid.dest dest rfl
  simp only [Body.perform, h.calls]
  -- both sides evaluate the value alike, so they are compared by what they come to
  generalize body.evaluateValue setting config.store config.calls value = first at hvalue ⊢
  generalize (sweep body dead).evaluateValue setting config'.store config.calls value = second
    at hvalue ⊢
  cases hvalue with
  | error ending => rfl
  | ok word globals calls =>
      obtain ⟨written, hwrite⟩ := @Body.write_ok setting body dest location hlocation hwritable
        { config.store with globals } word
      have hsame : ({ config'.store with globals } : Store).globals =
          ({ config.store with globals } : Store).globals := rfl
      obtain ⟨written', hwrite', hglobals, hlocals⟩ := Body.write_agrees
        (show (sweep body dead).locations = body.locations from rfl) hsame hwrite
      simp only [hwrite, hwrite']
      refine ⟨⟨h.block, h.rest, rfl, hglobals⟩, fun loc htracks _ hsame => ?_⟩
      exact hlocals loc htracks fun hne => hsame fun heq => hne (Option.some.inj heq).symm

/-- A statement that is left does the same, if it reads the same. -/
theorem Beside.perform (h : Beside body dead config config') {stmt : Inst} {command : Command}
    (hvalid : command.Valid body stmt)
    (hreads : ∀ access ∈ command.reads stmt,
      (sweep body dead).read setting config'.store access.loc =
        body.read setting config.store access.loc) :
    Follows body dead config.store config'.store command.dest? none
      (body.perform setting config command)
      ((sweep body dead).perform setting config' command) := by
  cases hdest : command.dest? with
  | some dest =>
      obtain ⟨value, rfl⟩ := Command.eq_save hdest
      exact h.performSave hvalid hreads
  | none =>
      have habreast := Body.perform_abreast hdest h.globals h.calls hreads
      generalize body.perform setting config command = first at habreast ⊢
      generalize (sweep body dead).perform setting config' command = second at habreast ⊢
      cases habreast with
      | ended ending => rfl
      | falls globals calls =>
          exact ⟨⟨h.block, h.rest, rfl, rfl⟩, fun _ _ _ hsame => hsame fun heq => by cases heq⟩
      | jumps label => exact h.goTo label

/-- A save that is deleted leaves its call. -/
theorem Beside.performCall (h : Beside body dead config config') {stmt inst : Inst}
    {target : Symbol} {args : List Loc} {isExternal : Bool} {saved : List Register} {dest : Loc}
    (hvalid : Command.Valid body stmt (.save (.call inst target args isExternal saved) dest))
    (htracks : body.tracks dest = true)
    (hreads : ∀ loc ∈ args, (sweep body dead).read setting config'.store loc =
        body.read setting config.store loc) :
    Follows body dead config.store config'.store none (some dest)
      (body.perform setting config (.save (.call inst target args isExternal saved) dest))
      ((sweep body dead).perform setting config' (.call target args isExternal saved)) := by
  have hargs := @Body.callOut_agrees setting body (sweep body dead) _ _ h.globals id args
    hreads config.calls target
  rw [List.map_id] at hargs
  simp only [Body.perform, Body.evaluateValue, h.calls]
  generalize body.callOut setting config.store config.calls target args = first at hargs ⊢
  generalize (sweep body dead).callOut setting config'.store config.calls target args = second
    at hargs ⊢
  cases hargs with
  | error ending => rfl
  | ok word globals calls =>
      obtain ⟨location, hlocation, hwritable⟩ := hvalid.dest dest rfl
      obtain ⟨written, hwrite⟩ := @Body.write_ok setting body dest location hlocation hwritable
        { config.store with globals } word
      simp only [hwrite]
      rw [Body.write_tracked htracks hwrite]
      refine ⟨⟨h.block, h.rest, rfl, rfl⟩, fun loc _ hne hsame => ?_⟩
      show config'.store.locals loc = _
      rw [Store.setLocal_locals_other fun heq => hne (congrArg some heq.symm)]
      exact hsame fun heq => by cases heq

/-! ## Runs side by side -/

/-- Two runs side by side: what is live has the same contents, and the first run
    does not fail. -/
structure Match (setting : Setting) (body : Body) (dead : List Inst) (config config' : Config) :
    Prop extends Beside body dead config config' where
  reached : body.At config.block config.rest
  safe : ((body.execution setting).behaviour config).Unfailing
  live : ∀ access, body.tracks access.loc = true → body.Live access config.point →
    config'.store.locals access.loc = config.store.locals access.loc

namespace Match

variable (wf : WellFormed body) (hdead : ∀ stmt ∈ dead, Idle body stmt)

/-- What a statement reads is live in front of it. -/
theorem read_eq (h : Match setting body dead config config') {access : Access}
    (hreads : body.ReadsBy access config.point) :
    (sweep body dead).read setting config'.store access.loc =
      body.read setting config.store access.loc :=
  Body.read_agrees rfl h.globals fun htracks => h.live access htracks (.of_reads hreads)

/-- The points behind the next statement, whatever is left of it. -/
theorem behind (h : Match setting body dead config config') (rest : List Inst) :
    Beside body dead { config with rest }
      { config' with rest := rest.flatMap (leftOf body dead) } :=
  ⟨h.block, rfl, h.calls, h.globals⟩

include wf

/-- A step that is followed leads to the same place again. -/
theorem next (h : Match setting body dead config config') {gained lost : Option Loc}
    {next next' : Config} (hstep : body.stepFrom setting config = .going next)
    (hfollows :
      Follows body dead config.store config'.store gained lost (.going next) (.going next'))
    (hgained : ∀ loc, gained = some loc ∨ lost = some loc ∨ ¬ body.Writes loc config.point)
    (hlost : ∀ loc, lost = some loc → ∀ access, access.loc = loc → ¬ body.Live access next.point) :
    Match setting body dead next next' := by
  obtain ⟨hbeside, hlocals⟩ := hfollows
  obtain ⟨hleads, -⟩ := Body.stepFrom_going (fun stmt hstmt =>
    (wf.commands_of_at h.reached stmt hstmt).imp fun _ hcommand => hcommand.1) hstep
  refine ⟨hbeside, wf.at_leads h.reached hleads, System.unfailing_next h.safe hstep, ?_⟩
  intro access htracks hlive
  have hkept : lost ≠ some access.loc := fun heq => hlost _ heq access rfl hlive
  refine hlocals access.loc htracks hkept fun hnew => h.live access htracks ?_
  rcases hgained access.loc with heq | heq | hwrites
  · exact absurd heq hnew
  · exact absurd heq hkept
  · exact hlive.back hleads hwrites

/-- A save without a call is skipped. -/
theorem skip (h : Match setting body dead config config') {stmt : Inst} {rest : List Inst}
    {value : Value} {dest : Loc} (hrest : config.rest = stmt :: rest)
    (hcommand : body.command? stmt = some (.save value dest)) (htracks : body.tracks dest = true)
    (hquiet : value.callInst? = none) (hleft : leftOf body dead stmt = [])
    (hidle : (∀ access, access.loc = dest → ¬ body.Live access ⟨config.block, rest⟩) ∨
      ∃ inst, value = .load ⟨inst, dest⟩) :
    ∃ next, body.stepFrom setting config = .going next ∧ Match setting body dead next config' ∧
      next.rest.length < config.rest.length := by
  have hat : body.At config.block (stmt :: rest) := hrest ▸ h.reached
  have hvalid := wf.valid (Body.mem_stmts_of_stmtsOf hat.mem) hcommand
  obtain ⟨location, hlocation, hwritable⟩ := hvalid.dest dest rfl
  have hstep : body.stepFrom setting config = body.perform setting { config with rest }
    (.save value dest) := Body.stepFrom_eq hrest hcommand
  have hvalue := @Body.evaluateValue_quiet setting body config.store config.calls value hquiet
  simp only [Body.perform] at hstep
  cases hresult : body.evaluateValue setting config.store config.calls value with
  | error ending =>
      -- the run would fail
      rw [hresult] at hvalue hstep
      obtain ⟨hstuck, htrap⟩ := System.unfailing_ended h.safe hstep
      rcases hvalue with heq | heq
      · exact absurd heq hstuck
      · exact absurd heq htrap
  | ok reached =>
      rw [hresult] at hvalue hstep
      obtain ⟨hstore, hcalls⟩ := hvalue
      obtain ⟨written, hwrite⟩ := @Body.write_ok setting body dest location hlocation hwritable
        config.store reached.value
      dsimp only at hstep
      rw [hstore, hwrite, hcalls, Body.write_tracked htracks hwrite] at hstep
      have hleads : body.Leads config.point ⟨config.block, rest⟩ := by
        rw [Config.point, hrest]
        exact .fall hcommand rfl
      refine ⟨_, hstep, ⟨⟨h.block, ?_, h.calls, h.globals⟩, wf.at_leads h.reached hleads,
        System.unfailing_next h.safe hstep, fun access htracked hlive => ?_⟩, ?_⟩
      · rw [h.rest, hrest, List.flatMap_cons, hleft, List.nil_append]
      · replace hlive : body.Live access ⟨config.block, rest⟩ := hlive
        by_cases heq : access.loc = dest
        · rcases hidle with hdead | ⟨inst, rfl⟩
          · exact absurd hlive (hdead access heq)
          · -- the location holds what is copied into it, and this is read here
            have hread : body.ReadsBy ⟨inst, dest⟩ config.point :=
              ⟨stmt, rest, _, hrest, hcommand, List.mem_cons_self⟩
            have hsame := h.live ⟨inst, dest⟩ htracks (.of_reads hread)
            simp only [Body.evaluateValue, Body.read_tracked htracks] at hresult
            rw [heq, Store.setLocal_locals_same]
            cases hlocal : config.store.locals dest with
            | none => rw [hlocal] at hresult; cases hresult
            | some word =>
                rw [hlocal] at hresult hsame
                cases hresult
                exact hsame
        · rw [Store.setLocal_locals_other heq]
          refine h.live access htracked (hlive.back hleads ?_)
          exact Body.not_writes_of_dest hrest hcommand fun hdest => heq (Option.some.inj hdest).symm
      · rw [hrest]
        exact Nat.lt_succ_self _

/-- A step that is followed is matched. -/
theorem matched (h : Match setting body dead config config') {gained lost : Option Loc}
    (hfollows : Follows body dead config.store config'.store gained lost
      (body.stepFrom setting config) ((sweep body dead).stepFrom setting config'))
    (hgained : ∀ loc, gained = some loc ∨ lost = some loc ∨ ¬ body.Writes loc config.point)
    (hlost : ∀ loc next, lost = some loc → body.stepFrom setting config = .going next →
      ∀ access, access.loc = loc → ¬ body.Live access next.point) :
    System.StepMatched ((sweep body dead).execution setting) (Match setting body dead)
      (fun config => config.rest.length) config config' (body.stepFrom setting config) := by
  cases hstep : body.stepFrom setting config with
  | going next =>
      cases hstep' : (sweep body dead).stepFrom setting config' with
      | going next' =>
          rw [hstep, hstep'] at hfollows
          refine ⟨1, next', (System.run_one _).trans hstep', ?_, fun h => by cases h⟩
          exact h.next wf hstep hfollows hgained fun loc hloc => hlost loc next hloc hstep
      | ended ending =>
          rw [hstep, hstep'] at hfollows
          exact hfollows.elim
  | ended ending =>
      cases hstep' : (sweep body dead).stepFrom setting config' with
      | going next' =>
          rw [hstep, hstep'] at hfollows
          exact hfollows.elim
      | ended ending' =>
          rw [hstep, hstep'] at hfollows
          have hsame : ending' = ending := hfollows
          exact ⟨1, (System.run_one _).trans (hsame ▸ hstep')⟩

/-- A statement that is left is performed on both sides. -/
theorem keep (h : Match setting body dead config config') {stmt : Inst} {rest : List Inst}
    {command : Command} (hrest : config.rest = stmt :: rest)
    (hcommand : body.command? stmt = some command) (hleft : leftOf body dead stmt = [stmt]) :
    System.StepMatched ((sweep body dead).execution setting) (Match setting body dead)
      (fun config => config.rest.length) config config' (body.stepFrom setting config) := by
  have hat : body.At config.block (stmt :: rest) := hrest ▸ h.reached
  have hvalid := wf.valid (Body.mem_stmts_of_stmtsOf hat.mem) hcommand
  have hrest' : config'.rest = stmt :: rest.flatMap (leftOf body dead) := by
    rw [h.rest, hrest, List.flatMap_cons, hleft]
    rfl
  have hfollows : Follows body dead config.store config'.store command.dest? none
      (body.stepFrom setting config) ((sweep body dead).stepFrom setting config') := by
    rw [Body.stepFrom_eq hrest hcommand,
      Body.stepFrom_eq hrest' ((command?_sweep stmt).trans hcommand)]
    exact (h.behind rest).perform hvalid fun access haccess =>
      h.read_eq ⟨stmt, rest, command, hrest, hcommand, haccess⟩
  refine h.matched wf hfollows (fun loc => ?_) fun _ _ hloc => by cases hloc
  by_cases hdest : command.dest? = some loc
  · exact Or.inl hdest
  · exact Or.inr (Or.inr (Body.not_writes_of_dest hrest hcommand hdest))

/-- A save of a call that leaves the call makes it on both sides; what the one side
    saves is not read any more. -/
theorem call (h : Match setting body dead config config') {stmt inst : Inst} {rest : List Inst}
    {target : Symbol} {args : List Loc} {isExternal : Bool} {saved : List Register} {dest : Loc}
    (hrest : config.rest = stmt :: rest)
    (hcommand : body.command? stmt = some (.save (.call inst target args isExternal saved) dest))
    (htracks : body.tracks dest = true) (hleft : leftOf body dead stmt = [inst])
    (hunread : ∀ access, access.loc = dest → ¬ body.Live access ⟨config.block, rest⟩) :
    System.StepMatched ((sweep body dead).execution setting) (Match setting body dead)
      (fun config => config.rest.length) config config' (body.stepFrom setting config) := by
  have hat : body.At config.block (stmt :: rest) := hrest ▸ h.reached
  have hvalid := wf.valid (Body.mem_stmts_of_stmtsOf hat.mem) hcommand
  have hrest' : config'.rest = inst :: rest.flatMap (leftOf body dead) := by
    rw [h.rest, hrest, List.flatMap_cons, hleft]
    rfl
  have hcall : (sweep body dead).command? inst = some (.call target args isExternal saved) :=
    (command?_sweep inst).trans
      (Body.command?_eq_some.mpr (Body.command?_eq_some.mp hcommand).2)
  have hfollows : Follows body dead config.store config'.store none (some dest)
      (body.stepFrom setting config) ((sweep body dead).stepFrom setting config') := by
    rw [Body.stepFrom_eq hrest hcommand, Body.stepFrom_eq hrest' hcall]
    refine (h.behind rest).performCall hvalid htracks fun loc hloc => ?_
    exact h.read_eq ⟨stmt, rest, _, hrest, hcommand, List.mem_map.mpr ⟨loc, hloc, rfl⟩⟩
  refine h.matched wf hfollows (fun loc => ?_) ?_
  · by_cases hdest : dest = loc
    · exact Or.inr (Or.inl (congrArg some hdest))
    · refine Or.inr (Or.inr (Body.not_writes_of_dest hrest hcommand fun heq => ?_))
      exact hdest (Option.some.inj heq)
  · rintro _ next heq hstep access rfl
    cases heq
    rw [Body.stepFrom_eq hrest hcommand] at hstep
    rw [Body.perform_save_point hstep]
    exact hunread access rfl

include hdead in
/-- **EVERY STEP IS MATCHED**. -/
theorem step (h : Match setting body dead config config') :
    System.StepMatched ((sweep body dead).execution setting) (Match setting body dead)
      (fun config => config.rest.length) config config' (body.stepFrom setting config) := by
  -- at the end of a block control leaves it; otherwise the statement is kept, skipped or
  -- left as its call
  cases hrest : config.rest with
  | nil =>
      have hrest' : config'.rest = [] := by rw [h.rest, hrest]; rfl
      have hfollows : Follows body dead config.store config'.store none none
          (body.stepFrom setting config) ((sweep body dead).stepFrom setting config') := by
        rw [Body.stepFrom_nil hrest, Body.stepFrom_nil hrest']
        exact h.leave
      exact h.matched wf hfollows (fun loc => Or.inr (Or.inr (Body.not_writes_of_nil hrest)))
        fun _ _ hloc => by cases hloc
  | cons stmt rest =>
      have hat : body.At config.block (stmt :: rest) := hrest ▸ h.reached
      obtain ⟨command, hcommand, -⟩ := wf.command_of_mem hat.mem
      rcases leftOf_cases body dead stmt with hleft | ⟨value, dest, hsave, hin, hleft⟩
      · exact h.keep wf hrest hcommand hleft
      · obtain ⟨value', dest', hsave', htracks, hidle⟩ := hdead stmt hin
        cases hsave.symm.trans hsave'
        cases hmade : value.callInst? with
        | none =>
            rw [hmade] at hleft
            obtain ⟨next, hstep, hmatch, hlt⟩ := h.skip wf hrest hsave htracks hmade hleft
              (hidle.imp (fun hnot => hnot config.block rest hat) id)
            rw [hstep]
            exact ⟨0, config', rfl, hmatch, fun _ => hlt⟩
        | some inst =>
            rw [hmade] at hleft
            cases value with
            | call made target args isExternal saved =>
                cases hmade
                refine h.call wf hrest hsave htracks hleft ?_
                rcases hidle with hnot | ⟨_, hload⟩
                · exact hnot config.block rest hat
                · cases hload
            | load | param | unary | binary => cases hmade

end Match

/-! ## Whole runs -/

section

variable (wf : WellFormed body)
include wf

/-- What is left of a body behaves like it, as long as it does not fail. -/
theorem sweep_same (hdead : ∀ stmt ∈ dead, Idle body stmt) {store : Store}
    (hsafe : (body.behaviour setting store).Unfailing) :
    Behaviour.Same (body.behaviour setting store) ((sweep body dead).behaviour setting store) := by
  have hstart : Match setting body dead (body.start store) ((sweep body dead).start store) :=
    ⟨⟨rfl, stmtsOf_sweep _, rfl, rfl⟩, Body.At.start wf.blocks_pos, hsafe, fun _ _ _ => rfl⟩
  exact System.same_of_simulation (fun _ _ hmatch => hmatch.calls)
    (fun _ _ hmatch => hmatch.step wf hdead) hstart

omit wf in
/-- What rounds of deletions lead to. -/
structure Swept (body after : Body) : Prop where
  wellFormed : WellFormed after
  locations : after.locations = body.locations
  same : ∀ {setting : Setting} {store : Store}, (body.behaviour setting store).Unfailing →
    Behaviour.Same (body.behaviour setting store) (after.behaviour setting store)

/-- A round finds nothing, or deletes saves that do nothing. -/
theorem deleteWithin_cases {graph : FlowGraph} {rounds deleted count : Nat} {after : Body}
    (hflow : graph.Of body)
    (h : deleteWithin graph (rounds + 1) deleted body = .ok (count, after)) :
    (count = deleted ∧ after = body ∧
      ∃ liveness, Liveness.compute body graph = .ok liveness ∧ find body liveness = .ok []) ∨
    ∃ dead, dead.Nodup ∧ (∀ stmt ∈ dead, stmt ∈ body.stmts ∧ Idle body stmt) ∧
      deleteWithin graph rounds (deleted + dead.length) (sweep body dead) = .ok (count, after) := by
  obtain ⟨liveness, hliveness, hcomputed⟩ := Liveness.compute_ok wf hflow
  obtain ⟨dead, hfind, hnodup, hdead⟩ := find_ok wf hcomputed
  rw [deleteWithin] at h
  obtain ⟨computed, hcomputed', h⟩ := Checked.bind_eq_ok h
  cases hliveness.symm.trans hcomputed'
  obtain ⟨found, hfound, h⟩ := Checked.bind_eq_ok h
  cases hfind.symm.trans hfound
  split at h
  · next hempty =>
      cases h
      exact Or.inl ⟨rfl, rfl, liveness, hliveness, List.isEmpty_iff.mp hempty ▸ hfind⟩
  · obtain ⟨next, hnext, h⟩ := Checked.bind_eq_ok h
    have hswept : next = sweep body dead :=
      @foldlM_delete body wf [] dead next hnodup hdead (sweep_nil.symm ▸ hnext)
    subst hswept
    exact Or.inr ⟨dead, hnodup, hdead, h⟩

/-- The rounds delete saves that do nothing. -/
theorem deleteWithin_swept {graph : FlowGraph} {rounds deleted count : Nat} {after : Body}
    (hflow : graph.Of body) (h : deleteWithin graph rounds deleted body = .ok (count, after)) :
    Swept body after := by
  induction rounds generalizing body deleted with
  | zero => cases h
  | succ rounds ih =>
      rcases deleteWithin_cases wf hflow h with ⟨-, rfl, -⟩ | ⟨dead, -, hdead, h⟩
      · exact ⟨wf, rfl, fun _ => Behaviour.Same.refl _⟩
      · have hlater := ih (sweep_wellFormed wf) (sweep_flow wf hflow) h
        refine ⟨hlater.wellFormed, hlater.locations, fun {setting store} hsafe => ?_⟩
        have hsame := sweep_same wf (fun stmt hstmt => (hdead stmt hstmt).2) hsafe
        exact hsame.trans (hlater.same (hsafe.of_same hsame))

end

end DeadSaves

/-- **DEAD SAVES ARE DELETED SOUNDLY**. -/
theorem eliminateDeadSaves_swept {body after : Body} {count : Nat} (wf : WellFormed body)
    (h : eliminateDeadSaves body = .ok (count, after)) : DeadSaves.Swept body after := by
  obtain ⟨graph, hgraph, hflow⟩ := wf.flowGraph_ok
  rw [eliminateDeadSaves, hgraph] at h
  exact DeadSaves.deleteWithin_swept wf hflow h

end DecafBackend
