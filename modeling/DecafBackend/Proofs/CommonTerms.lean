import DecafBackend.Proofs.CommonTermsRuns

/-! # Common subexpressions are found soundly

    A body and the changed body run side by side.  Between statements, all
    locations of the original body have the same contents in both runs.

    * `Agree` — stores that agree on the original locations
    * `Match` — points of the two runs
    * `follow_save`, `follow_idle`, `follow` — every step is followed
    * `eliminateCommonTerms_same_runs` — the runs of the two bodies -/

namespace DecafBackend.CommonTerms

open Available (Unified)

/-! ## Contents -/

section

variable {setting : Setting} {original body : Body} {temps : Std.ExtTreeMap Inst Loc}
  (hsited : Sited original body temps)
include hsited

/-- The new locations are no fields. -/
theorem Sited.separates (h : setting.Separates original) : setting.Separates body := by
  have hold : ∀ {i : Nat} {name : Symbol}, body.locations[i]? = some (.global name) →
      original.locations[i]? = some (.global name) := by
    intro i name hi
    by_cases hlt : i < original.locations.size
    · rw [← hsited.old hlt, hi]
    · have hnew := hsited.new (Nat.not_lt.mp hlt) (Array.getElem?_eq_some_iff.mp hi).1
      rw [hi] at hnew
      cases hnew
  intro a b i j ha hb
  exact h (hold ha) (hold hb)

/-- Fields do not matter to the new locations. -/
theorem Sited.read_high {loc : Loc} (hhigh : original.locations.size ≤ loc.index) (store : Store)
    (globals : Globals) :
    body.read setting { store with globals } loc = body.read setting store loc := by
  by_cases hlt : loc.index < body.locations.size
  · exact Body.read_globals (Body.isGlobal_eq (hsited.new hhigh hlt)) globals
  · rw [Body.read, Body.read, Array.getElem?_eq_none (Nat.not_lt.mp hlt)]
    rfl

/-- Stores that agree read old locations alike. -/
theorem Agree.read {store store' : Store} (h : Agree original store store') {loc : Loc}
    (hlow : loc.index < original.locations.size) :
    body.read setting store' loc = original.read setting store loc := by
  rw [Body.read, Body.read, hsited.old hlow]
  cases original.locations[loc.index]? with
  | none => rfl
  | some location =>
      cases location with
      | global name => exact congrArg (fun globals : Globals => some (globals _)) h.globals
      | localVar name => exact h.locals loc hlow
      | temp => exact h.locals loc hlow
      | constant | literal => rfl

/-- The same write in two stores that agree. -/
theorem Agree.write {store store' after : Store} (h : Agree original store store') {loc : Loc}
    {word : Word} (hwrite : original.write setting store loc word = some after) :
    ∃ after', body.write setting store' loc word = some after' ∧ Agree original after after' := by
  obtain ⟨location, hlocation, hwrite⟩ := Option.bind_eq_some_iff.mp hwrite
  have hlow := (Array.getElem?_eq_some_iff.mp hlocation).1
  rw [Body.write, hsited.old hlow, hlocation]
  -- the written location has the new word in both, and the others agree as before
  have hlocals : ∀ other : Loc, other.index < original.locations.size →
      (store'.setLocal loc word).locals other = (store.setLocal loc word).locals other := by
    intro other hother
    by_cases hsame : other = loc
    · rw [hsame, Store.setLocal_locals_same, Store.setLocal_locals_same]
    · rw [Store.setLocal_locals_other hsame, Store.setLocal_locals_other hsame]
      exact h.locals other hother
  cases location with
  | global name =>
      cases hwrite
      refine ⟨_, rfl, ?_, h.locals⟩
      simp only [Store.setGlobal, h.globals]
  | localVar name =>
      cases hwrite
      exact ⟨_, rfl, h.globals, hlocals⟩
  | temp =>
      cases hwrite
      exact ⟨_, rfl, h.globals, hlocals⟩
  | constant | literal => cases hwrite

omit hsited in
/-- A write of a new location does not matter to the original ones. -/
theorem Agree.write_high {store store' last : Store} (h : Agree original store store') {loc : Loc}
    {word : Word} (hplace : body.locations[loc.index]? = some .temp)
    (hhigh : original.locations.size ≤ loc.index)
    (hwrite : body.write setting store' loc word = some last) : Agree original store last := by
  rw [Body.write, hplace] at hwrite
  cases hwrite
  refine ⟨h.globals, fun other hother => ?_⟩
  rw [Store.setLocal_locals_other]
  · exact h.locals other hother
  · rintro rfl
    exact absurd hother (Nat.not_lt.mpr hhigh)

end

/-- Values that are no calls leave all contents as they are. -/
theorem evaluateValue_store {setting : Setting} {body : Body} {store : Store}
    {calls : List CallEvent} {value : Value} {reached : Body.Reached}
    (hcall : value.callInst? = none)
    (h : body.evaluateValue setting store calls value = .ok reached) : reached.store = store := by
  have hquiet := @Body.evaluateValue_quiet setting body store calls value hcall
  rw [h] at hquiet
  exact hquiet.1

/-! ## Points of two runs -/

/-- Points at which two runs go along. -/
structure Match (setting : Setting) (original body : Body) (temps : Std.ExtTreeMap Inst Loc)
    (solution : Solution Available) (sets : DisjointSets .loc) (visits : List Visit)
    (copies : Inst → List Inst) (config config' : Config) : Prop where
  block : config'.block = config.block
  rest : config'.rest = config.rest.flatMap fun stmt => stmt :: copies stmt
  calls : config'.calls = config.calls
  stores : Agree original config.store config'.store
  point : original.At config.block config.rest
  walking : Walking setting original body temps solution sets visits config.block config.rest
    config'.store

section

variable {setting : Setting} {original body after : Body} {temps : Std.ExtTreeMap Inst Loc}
  {graph : FlowGraph} {solution : Solution Available} {sets : DisjointSets .loc}
  {edits : List Edit} {visits : List Visit} {copies : Inst → List Inst}
  (h : Rewritten original body after temps graph solution sets edits visits copies)
  (hfields : setting.Separates original)
include h

/-- Rewriting changes no read. -/
theorem Rewritten.read_eq (store : Store) (loc : Loc) :
    after.read setting store loc = body.read setting store loc :=
  Body.read_congr (by rw [h.locations])

/-- Rewriting changes no write. -/
theorem Rewritten.write_eq (store : Store) (loc : Loc) (word : Word) :
    after.write setting store loc word = body.write setting store loc word :=
  Body.write_congr (by rw [h.locations])

/-- The representative of a temporary can be written. -/
theorem Rewritten.root_temp {stmt : Inst} {temp : Loc} (htemp : temps[stmt]? = some temp) :
    original.locations.size ≤ (sets.root temp).index ∧
      body.locations[(sets.root temp).index]? = some .temp := by
  by_cases hroot : sets.root temp = temp
  · rw [hroot]
    exact ⟨(h.sited.temp htemp).1, h.sited.temp_location htemp⟩
  · obtain ⟨-, hright, term, -, ⟨site, -, -, hsite, -⟩, -⟩ := h.found.unified temp hroot
    exact ⟨hright, h.sited.temp_location hsite⟩

/-- A save gives the same value in both runs. -/
theorem Rewritten.value_agrees {block : Block} {stmt : Inst} {rest : List Inst} {value : Value}
    {dest : Loc} {store store' : Store}
    (hwalking : Walking setting original body temps solution sets visits block (stmt :: rest)
      store')
    (hstores : Agree original store store') (hstmt : stmt ∈ original.stmts)
    (hcommand : original.command? stmt = some (.save value dest)) (calls : List CallEvent) :
    ∃ value', after.command? stmt = some (.save value' dest) ∧
      Body.Agrees store store' (original.evaluateValue setting store calls value)
        (after.evaluateValue setting store' calls value') := by
  have hvalid := h.wf.valid hstmt hcommand
  by_cases hreused : ∃ source, Edit.reuse stmt source ∈ edits
  · obtain ⟨source, hsource⟩ := hreused
    obtain ⟨load, hload⟩ := h.reused hstmt hcommand hsource
    refine ⟨_, hload, ?_⟩
    obtain ⟨value', dest', term, word, heq, hterm, heval, hread⟩ :=
      h.reuse_spec hwalking hcommand hsource
    cases heq
    -- the original body computes what the source holds
    have heval' : term.eval setting.arithmetic (original.read setting store) = some word := by
      rw [← heval]
      refine Term.eval_congr fun loc hloc => ?_
      obtain ⟨access, haccess, rfl⟩ := Value.mem_operands_term hterm hloc
      exact (hstores.read h.sited (hvalid.reads access haccess)).symm
    rw [Body.evaluateValue_of_eval hterm heval', Body.evaluateValue]
    simp only [h.read_eq, hread]
    exact Body.agrees_same hstores.globals word calls
  -- the save is kept, and its operands are old locations
  · refine ⟨value, h.kept hstmt hcommand fun source hsource => hreused ⟨source, hsource⟩, ?_⟩
    have hagrees : Body.Agrees store store' (original.evaluateValue setting store calls value)
        (after.evaluateValue setting store' calls (value.mapLocs id)) := by
      refine Body.evaluateValue_agrees hstores.globals (fun access haccess => ?_) calls
      rw [h.read_eq]
      exact hstores.read h.sited (hvalid.reads access haccess)
    rw [value.mapLocs_id] at hagrees
    exact hagrees

include hfields

/-! ## Steps -/

/-- What a save and the copy behind it do to the contents. -/
theorem Rewritten.effect_save {stmt : Inst} {value : Value} {dest : Loc}
    {store written last : Store} {globals : Globals} {word : Word}
    (hstmt : stmt ∈ original.stmts)
    (hcommand : original.command? stmt = some (.save value dest))
    (hglobals : value.callInst? = none → globals = store.globals)
    (heval : ∀ {term}, value.term? = some term →
      term.eval setting.arithmetic (body.read setting store) = some word)
    (hwrite : body.write setting { store with globals } dest word = some written)
    (hothers : ∀ {loc : Loc}, (∀ {term temp}, value.term? = some term → dest ∉ term.operands →
      temps[stmt]? = some temp → sets.root temp ≠ loc) →
        body.read setting last loc = body.read setting written loc)
    (hcopied : ∀ {term temp}, value.term? = some term → dest ∉ term.operands →
      temps[stmt]? = some temp → body.read setting last (sets.root temp) = some word) :
    Effect setting original body temps sets stmt (.save value dest) store last := by
  have wf' := h.sited.wellFormed h.wf
  have hfields' : setting.Separates body := h.sited.separates hfields
  have hdest : dest.index < original.locations.size :=
    (h.sited.low h.wf (h.sited.stmts_eq ▸ hstmt)
      ((h.sited.command?_eq stmt).trans hcommand)).dest dest rfl
  -- the temporary that is written on the way is none of the old locations
  have hlow : ∀ {loc : Loc}, loc.index < original.locations.size →
      body.read setting last loc = body.read setting written loc := by
    intro loc hloc
    refine hothers fun _ _ htemp heq => ?_
    have hhigh := (h.root_temp htemp).1
    rw [heq] at hhigh
    exact absurd hloc (Nat.not_lt.mpr hhigh)
  refine ⟨?_, ?_, ?_⟩
  · intro loc hloc hne hcall
    have hother : loc ≠ dest := fun heq => hne (congrArg some heq.symm)
    rw [hlow hloc, Body.read_write_other wf' hfields' hwrite hother]
    cases hsome : value.callInst? with
    | none => rw [hglobals hsome]
    | some call =>
        refine Body.read_globals (hcall ?_) globals
        show value.callInst?.isSome = true
        rw [hsome]
        rfl
  · intro loc hloc hnot
    have hother : loc ≠ dest := by
      rintro rfl
      exact absurd hdest (Nat.not_lt.mpr hloc)
    rw [hothers fun hterm hmem htemp => hnot rfl hterm hmem htemp,
      Body.read_write_other wf' hfields' hwrite hother]
    exact h.sited.read_high hloc store globals
  · intro value' dest' term heq hterm
    cases heq
    refine ⟨word, heval hterm, ?_, fun hmem htemp => hcopied hterm hmem htemp⟩
    rw [hlow hdest]
    exact Body.read_write_same hwrite

/-- The copy behind a save, if there is one, runs: it changes the contents of the
    representative of the temporary, and of nothing else. -/
theorem Rewritten.run_copies {block : Block} {stmt : Inst} {rest following : List Inst}
    {value : Value} {dest : Loc} {store : Store} {word : Word} {middle : Config}
    (hwalking : Walking setting original body temps solution sets visits block (stmt :: rest) store)
    (hstmt : stmt ∈ original.stmts)
    (hcommand : original.command? stmt = some (.save value dest))
    (hrest : middle.rest = copies stmt ++ following)
    (hread : body.read setting middle.store dest = some word) :
    ∃ k last, (after.execution setting).run k middle =
        .going { middle with rest := following, store := last } ∧
      (∀ {stored}, Agree original stored middle.store → Agree original stored last) ∧
      (∀ {loc : Loc}, (∀ {term temp}, value.term? = some term → dest ∉ term.operands →
        temps[stmt]? = some temp → sets.root temp ≠ loc) →
          body.read setting last loc = body.read setting middle.store loc) ∧
      ∀ {term temp}, value.term? = some term → dest ∉ term.operands →
        temps[stmt]? = some temp → body.read setting last (sets.root temp) = some word := by
  by_cases hremembered : ∃ temp, Edit.remember stmt temp ∈ edits
  · obtain ⟨temp, htemp⟩ := hremembered
    obtain ⟨copy, load, hcopies, hcopy⟩ := h.copied hstmt hcommand htemp
    obtain ⟨_, _, term, heq, hterm, hnot, hsite⟩ := (h.remember_iff hwalking hcommand).mp htemp
    cases heq
    obtain ⟨hhigh, hplace⟩ := h.root_temp hsite
    obtain ⟨last, hlast⟩ : ∃ last, body.write setting middle.store (sets.root temp) word =
      some last := Body.write_ok hplace rfl _ _
    -- the copy behind the save is one step of the rewritten run
    have hstep : (after.execution setting).step middle = _ :=
      Body.stepFrom_eq (show middle.rest = copy :: following by rw [hrest, hcopies]; rfl) hcopy
    simp only [Body.perform, Body.evaluateValue, h.read_eq, hread, h.write_eq, hlast] at hstep
    refine ⟨1, last, System.run_succ_going hstep 0, fun hagree =>
      hagree.write_high hplace hhigh hlast, fun hloc => ?_, fun _ _ hsite' => ?_⟩
    · exact Body.read_write_other (h.sited.wellFormed h.wf) (h.sited.separates hfields) hlast
        fun heq => hloc hterm hnot hsite heq.symm
    · rw [hsite] at hsite'
      cases hsite'
      exact Body.read_write_same hlast
  · have hcopies := h.single fun temp htemp => hremembered ⟨temp, htemp⟩
    rw [hcopies, List.nil_append] at hrest
    refine ⟨0, middle.store, ?_, id, fun _ => rfl, fun hterm hnot hsite => ?_⟩
    · rw [← hrest]
      rfl
    · exact absurd ⟨_, (h.remember_iff hwalking hcommand).mpr ⟨_, _, _, rfl, hterm, hnot, hsite⟩⟩
        hremembered

/-- **SAVES ARE FOLLOWED**, together with the copy behind them. -/
theorem Rewritten.follow_save {config config' : Config} {stmt : Inst} {rest : List Inst}
    {value : Value} {dest : Loc}
    (hmatch : Match setting original body temps solution sets visits copies config config')
    (hrest : config.rest = stmt :: rest)
    (hcommand : original.command? stmt = some (.save value dest)) :
    ∃ k, System.StepFollowed (after.execution setting)
      (Match setting original body temps solution sets visits copies) config' k
      (original.stepFrom setting config) := by
  have hpoint := hmatch.point
  have hwalking := hmatch.walking
  rw [hrest] at hpoint hwalking
  have hstmt := Body.mem_stmts_of_stmtsOf hpoint.mem
  have hvalid := h.wf.valid hstmt hcommand
  have hrest' : config'.rest =
      stmt :: (copies stmt ++ rest.flatMap fun stmt => stmt :: copies stmt) := by
    rw [hmatch.rest, hrest, List.flatMap_cons]
    rfl
  obtain ⟨value', hcommand', hagrees⟩ :=
    h.value_agrees hwalking hmatch.stores hstmt hcommand config.calls
  have hstep' : (after.execution setting).step config' = _ :=
    Body.stepFrom_eq hrest' hcommand'
  rw [Body.stepFrom_eq hrest hcommand]
  simp only [Body.perform, hmatch.calls] at hstep' ⊢
  generalize hfirst : original.evaluateValue setting config.store config.calls value = first
    at hagrees ⊢
  generalize after.evaluateValue setting config'.store config.calls value' = second
    at hagrees hstep'
  -- both values came out alike, and both runs are in the middle of the save now
  cases hagrees with
  | error ending => exact ⟨0, System.run_succ_ended hstep' 0⟩
  | ok word globals calls =>
      have hstores : Agree original { config.store with globals }
          { config'.store with globals } := ⟨rfl, hmatch.stores.locals⟩
      obtain ⟨location, hlocation, hwritable⟩ := hvalid.dest dest rfl
      obtain ⟨saved, hsaved⟩ : ∃ saved, original.write setting { config.store with globals }
          dest word = some saved := Body.write_ok hlocation hwritable _ _
      obtain ⟨written, hwritten, hstores'⟩ := hstores.write h.sited hsaved
      simp only [h.write_eq, hwritten] at hstep'
      simp only [hsaved]
      -- without a call in it, the value leaves the fields as they are
      have hglobals : value.callInst? = none → globals = config'.store.globals := by
        intro hnone
        have hstore := evaluateValue_store hnone hfirst
        rw [hmatch.stores.globals, ← congrArg Store.globals hstore]
      have heval : ∀ {term}, value.term? = some term →
          term.eval setting.arithmetic (body.read setting config'.store) = some word := by
        intro term hterm
        rw [← (Body.eval_of_evaluateValue hterm hfirst).1]
        refine Term.eval_congr fun loc hloc => ?_
        obtain ⟨access, haccess, rfl⟩ := Value.mem_operands_term hterm hloc
        exact hmatch.stores.read h.sited (hvalid.reads access haccess)
      let middle : Config :=
        { config' with
          rest := copies stmt ++ rest.flatMap fun stmt => stmt :: copies stmt
          store := written
          calls }
      have hmiddle :
          middle.rest = copies stmt ++ rest.flatMap fun stmt => stmt :: copies stmt := rfl
      have hread : body.read setting middle.store dest = some word := Body.read_write_same hwritten
      obtain ⟨k, last, hrun, hkeeps, hothers, hcopied⟩ :=
        h.run_copies hfields hwalking hstmt hcommand hmiddle hread
      refine ⟨k, _, (System.run_succ_going hstep' k).trans hrun, hmatch.block, rfl, rfl,
        hkeeps hstores', hpoint.next hcommand rfl, h.walking_next hwalking hcommand ?_⟩
      exact h.effect_save hfields hstmt hcommand hglobals heval hwritten hothers hcopied

omit hfields in
/-- What a statement that writes no location does to the contents. -/
theorem Rewritten.effect_idle {stmt : Inst} {command : Command} (hdest : command.dest? = none)
    {store : Store} {globals : Globals}
    (hglobals : command.callInst? stmt = none → globals = store.globals) :
    Effect setting original body temps sets stmt command store { store with globals } := by
  refine ⟨?_, ?_, ?_⟩
  · intro loc _ _ hcall
    cases hsome : command.callInst? stmt with
    | none => rw [hglobals hsome]
    | some call =>
        refine Body.read_globals (hcall ?_) globals
        rw [hsome]
        rfl
  · intro loc hloc _
    exact h.sited.read_high hloc store globals
  · rintro value dest term rfl
    cases hdest

omit hfields in
/-- A jump to a label, from the end of a block. -/
theorem Rewritten.follow_goTo {config config' : Config} {stmt : Inst} {rest : List Inst}
    {command : Command} {label : Label}
    (hmatch : Match setting original body temps solution sets visits copies config config')
    (hrest : config.rest = stmt :: rest) (hcommand : original.command? stmt = some command)
    (hlabel : command.target? = some label)
    (heffect : Effect setting original body temps sets stmt command config'.store config'.store) :
    ∃ target, original.goTo { config with rest } label =
        .going (original.enter { config with rest } target) ∧
      after.goTo { config' with rest := rest.flatMap fun stmt => stmt :: copies stmt } label =
        .going (after.enter { config' with rest := rest.flatMap fun stmt => stmt :: copies stmt }
          target) ∧
      Match setting original body temps solution sets visits copies
        (original.enter { config with rest } target)
        (after.enter { config' with rest := rest.flatMap fun stmt => stmt :: copies stmt }
          target) := by
  have hpoint := hmatch.point
  have hwalking := hmatch.walking
  rw [hrest] at hpoint hwalking
  have hstmt := Body.mem_stmts_of_stmtsOf hpoint.mem
  obtain ⟨target, hplaced, hlt⟩ := (h.wf.valid hstmt hcommand).target label hlabel
  obtain ⟨rfl, htarget⟩ := h.wf.mem_successors_of_target hpoint hcommand hlabel hplaced
    (h.flow.successors hpoint.block_lt)
  -- the rewritten body has the labels where they were, so it goes to the same block
  refine ⟨target, ?_, ?_, rfl, h.stmtsOf target, hmatch.calls, hmatch.stores, Body.At.start hlt, ?_⟩
  · rw [Body.goTo, hplaced]
  · rw [Body.goTo, h.labels, hplaced]
  · exact h.walking_enter (h.walking_next hwalking hcommand heffect) hpoint.block_lt htarget hlt

omit hfields in
/-- The end of a block. -/
theorem Rewritten.follow_leave {config config' : Config}
    (hmatch : Match setting original body temps solution sets visits copies config config')
    (hrest : config.rest = []) :
    System.StepFollowed (after.execution setting)
      (Match setting original body temps solution sets visits copies) config' 0
      (original.stepFrom setting config) := by
  have hrest' : config'.rest = [] := by rw [hmatch.rest, hrest]; rfl
  have hnext : after.next? config'.block = original.next? config.block := by
    rw [hmatch.block, Body.next?, Body.next?, h.blocks]
  have hstep' : (after.execution setting).step config' = _ := Body.stepFrom_nil hrest'
  rw [Body.stepFrom_nil hrest]
  rw [Body.leave, hnext] at hstep'
  rw [Body.leave]
  cases htarget : original.next? config.block with
  | none =>
      rw [htarget] at hstep'
      refine (System.run_succ_ended hstep' 0).trans ?_
      rw [Config.stop, Config.stop, hmatch.calls, hmatch.stores.globals]
  | some target =>
      rw [htarget] at hstep'
      have hpoint := hmatch.point
      have hwalking := hmatch.walking
      rw [hrest] at hpoint hwalking
      have hlt := WellFormed.next?_lt htarget
      have hsuccessor : target ∈ graph.successors config.block := by
        refine WellFormed.mem_successors_of_next hpoint htarget (fun stmt hstmt => ?_)
          (h.flow.successors hpoint.block_lt)
        obtain ⟨command, hcommand, -⟩ := h.wf.command_of_mem hstmt
        exact ⟨command, hcommand⟩
      exact ⟨after.enter config' target, System.run_succ_going hstep' 0, rfl, h.stmtsOf target,
        hmatch.calls, hmatch.stores, Body.At.start hlt,
        h.walking_enter hwalking hpoint.block_lt hsuccessor hlt⟩

omit hfields in
/-- A statement that writes no location is kept, and nothing is put behind it. -/
theorem Rewritten.follow_idle {config config' : Config} {stmt : Inst} {rest : List Inst}
    {command : Command}
    (hmatch : Match setting original body temps solution sets visits copies config config')
    (hrest : config.rest = stmt :: rest) (hcommand : original.command? stmt = some command)
    (hdest : command.dest? = none) :
    System.StepFollowed (after.execution setting)
      (Match setting original body temps solution sets visits copies) config' 0
      (original.stepFrom setting config) := by
  have hpoint := hmatch.point
  have hwalking := hmatch.walking
  rw [hrest] at hpoint hwalking
  have hstmt := Body.mem_stmts_of_stmtsOf hpoint.mem
  -- neither is the statement a save that was reused, nor one that is remembered
  have hkept : after.command? stmt = some command := by
    refine h.kept hstmt hcommand fun source hedit => ?_
    obtain ⟨_, _, _, _, rfl, -⟩ := h.reuse_spec hwalking hcommand hedit
    cases hdest
  have hcopies : copies stmt = [] := by
    refine h.single fun temp hedit => ?_
    obtain ⟨_, _, _, rfl, -⟩ := (h.remember_iff hwalking hcommand).mp hedit
    cases hdest
  have hrest' : config'.rest = stmt :: rest.flatMap fun stmt => stmt :: copies stmt := by
    rw [hmatch.rest, hrest, List.flatMap_cons, hcopies]
    rfl
  have hstep' : (after.execution setting).step config' = _ := Body.stepFrom_eq hrest' hkept
  have habreast : original.Abreast after stmt command { config with rest }
      { config' with rest := rest.flatMap fun stmt => stmt :: copies stmt } _ _ :=
    @Body.perform_abreast setting _ _ _ _ _ _ hdest hmatch.stores.globals hmatch.calls
      fun access haccess => (h.read_eq _ _).trans
        (hmatch.stores.read h.sited ((h.wf.valid hstmt hcommand).reads access haccess))
  rw [Body.stepFrom_eq hrest hcommand]
  generalize original.perform setting _ command = first at habreast ⊢
  generalize after.perform setting _ command = second at habreast hstep'
  cases habreast with
  | ended ending => exact System.run_succ_ended hstep' 0
  | falls globals calls hfalls hglobals =>
      exact ⟨_, System.run_succ_going hstep' 0, hmatch.block, rfl, rfl,
        ⟨rfl, hmatch.stores.locals⟩, hpoint.next hcommand hfalls,
        h.walking_next hwalking hcommand (h.effect_idle hdest hglobals)⟩
  | jumps label hlabel =>
      obtain ⟨block, hgo, hgo', hentered⟩ := h.follow_goTo hmatch hrest hcommand hlabel
        (h.effect_idle hdest fun _ => rfl)
      rw [hgo'] at hstep'
      rw [hgo]
      exact ⟨_, System.run_succ_going hstep' 0, hentered⟩

/-- **STEPS ARE FOLLOWED**. -/
theorem Rewritten.follow {config config' : Config}
    (hmatch : Match setting original body temps solution sets visits copies config config') :
    ∃ k, System.StepFollowed (after.execution setting)
      (Match setting original body temps solution sets visits copies) config' k
      (original.stepFrom setting config) := by
  cases hrest : config.rest with
  | nil => exact ⟨0, h.follow_leave hmatch hrest⟩
  | cons stmt rest =>
      have hpoint := hmatch.point
      rw [hrest] at hpoint
      obtain ⟨command, hcommand, -⟩ := h.wf.commands stmt (Body.mem_stmts_of_stmtsOf hpoint.mem)
      cases hdest : command.dest? with
      | none => exact ⟨0, h.follow_idle hmatch hrest hcommand hdest⟩
      | some dest =>
          obtain ⟨value, rfl⟩ := Command.eq_save hdest
          exact h.follow_save hfields hmatch hrest hcommand

omit hfields in
/-- The start of the two runs. -/
theorem Rewritten.start (hblocks : 0 < original.blocks.size) (store : Store) :
    Match setting original body temps solution sets visits copies (original.start store)
      (after.start store) :=
  ⟨rfl, h.stmtsOf ⟨0⟩, rfl, ⟨rfl, fun _ _ => rfl⟩, Body.At.start hblocks,
    h.walking_start hblocks store⟩

end

/-! ## The changed body -/

section

variable {original body : Body} {temps : Std.ExtTreeMap Inst Loc} {graph : FlowGraph}
  {solution : Solution Available} {sets : DisjointSets .loc} {edits : List Edit}
  {visits : List Visit}

/-- A body is rewritten by carrying out changes and renaming temporaries. -/
theorem rewritten_of_shape {changed after : Body} {copies : Inst → List Inst}
    (wf : WellFormed original) (hsited : Sited original body temps) (hflow : graph.Of original)
    (hsettled : ∀ {block : Block}, block ∈ graph.blocks →
      Settled graph (analysis body temps) solution block)
    (hflowing : Worklist.Satisfies (Flowing original body temps []) solution)
    (hfound : Found original body temps graph solution (Related original body temps)
      graph.reversePostorder sets edits visits)
    (hshape : Shape body changed edits copies) (hrenamed : Renamed sets.root changed after) :
    Rewritten original body after temps graph solution sets edits visits copies := by
  have hstmts : ∀ {stmt}, stmt ∈ original.stmts → stmt ∈ body.stmts := fun hstmt =>
    hsited.stmts_eq ▸ hstmt
  have hold : ∀ {stmt command}, original.command? stmt = some command →
      body.command? stmt = some command := fun hcommand =>
    (hsited.command?_eq _).trans hcommand
  have hdest : ∀ {stmt value dest}, stmt ∈ original.stmts →
      original.command? stmt = some (.save value dest) → sets.root dest = dest :=
    fun hstmt hcommand => root_low hfound.unified
      ((hsited.low wf (hstmts hstmt) (hold hcommand)).dest _ rfl)
  refine
    { wf, sited := hsited, flow := hflow, settled := hsettled, flowing := hflowing
      found := hfound
      blocks := by rw [hrenamed.blocks, hshape.blocks, hsited.blocks]
      locations := hrenamed.locations.trans hshape.locations
      labels := (hrenamed.labels.trans hshape.labels).trans hsited.labels
      stmtsOf := ?_, kept := ?_, reused := ?_, copied := ?_, single := hshape.single }
  -- what was found and what was renamed is read off in terms of the original body
  · intro block
    rw [← hsited.stmtsOf_eq, ← hshape.stmtsOf, Body.stmtsOf_congr hrenamed.blocks]
  · intro stmt command hstmt hcommand hnone
    have hlow := hsited.low wf (hstmts hstmt) (hold hcommand)
    have hkept := hshape.kept (hstmts hstmt) (hold hcommand) hnone
    rw [hrenamed.commands (hshape.mem_stmts (hstmts hstmt)) hkept]
    rw [Command.mapLocs_eq (fun access haccess => root_low hfound.unified
      (hlow.reads access haccess)) fun dest hdest => root_low hfound.unified (hlow.dest dest hdest)]
  · intro stmt value dest source hstmt hcommand hedit
    obtain ⟨load, hload⟩ := hshape.reused (hstmts hstmt) (hold hcommand) hedit
    refine ⟨load, ?_⟩
    rw [hrenamed.commands (hshape.mem_stmts (hstmts hstmt)) hload, Command.mapLocs, Value.mapLocs,
      hdest hstmt hcommand]
  · intro stmt value dest temp hstmt hcommand hedit
    obtain ⟨copy, load, hcopies, hcopy⟩ := hshape.copied (hstmts hstmt) (hold hcommand) hedit
    have hmem : copy ∈ changed.stmts :=
      hshape.copy_mem_stmts (hstmts hstmt) (by rw [hcopies]; exact List.mem_cons_self)
    refine ⟨copy, load, hcopies, ?_⟩
    rw [hrenamed.commands hmem hcopy, Command.mapLocs, Value.mapLocs, hdest hstmt hcommand]

/-- Renaming temporaries leaves a body well-formed. -/
theorem wellFormed_renamed {changed after : Body} (wf : WellFormed changed)
    (hlocations : changed.locations = body.locations) {related : Loc → Loc → Prop}
    (hrelates : Relates original body temps related)
    (hordered : sets.Ordered) (hunified : Unified related sets)
    (hrenamed : Renamed sets.root changed after) : WellFormed after := by
  refine wf.of_commands hrenamed.blocks hrenamed.locations ⟨0⟩ ?_
  intro stmt hstmt command hcommand
  have hvalid := wf.valid hstmt hcommand
  refine ⟨_, hrenamed.commands hstmt hcommand, ⟨?_, ?_, ?_⟩, Command.endsBlock_mapLocs _,
    Command.isTerminator_mapLocs _, fun inst hinst => Or.inl ?_⟩
  · intro access haccess
    rw [Command.reads_mapLocs] at haccess
    obtain ⟨old, hmem, rfl⟩ := List.mem_map.mp haccess
    rw [hrenamed.locations]
    exact Nat.lt_of_le_of_lt (hordered.root_le old.loc) (hvalid.reads old hmem)
  · intro loc hloc
    rw [Command.dest?_mapLocs] at hloc
    obtain ⟨dest, hdest, rfl⟩ := Option.map_eq_some_iff.mp hloc
    -- only temporaries have another representative, and that is a temporary as well
    by_cases hroot : sets.root dest = dest
    · rw [hroot, hrenamed.locations]
      exact hvalid.dest dest hdest
    · rw [hrenamed.locations, hlocations]
      exact ⟨.temp, hrelates.temp (hunified dest hroot), rfl⟩
  · intro label hlabel
    rw [Command.target?_mapLocs] at hlabel
    rw [hrenamed.labels, hrenamed.blocks]
    exact hvalid.target label hlabel
  · rw [Command.owned_mapLocs] at hinst
    exact hinst

end

/-- A body whose terms are known is changed, and then its temporaries are renamed. -/
theorem eliminateCommonTerms_renamed {steps : Nat} {original body : Body} {graph : FlowGraph}
    {temps : Std.ExtTreeMap Inst Loc} {solution : Solution Available} (wf : WellFormed original)
    {related : Loc → Loc → Prop} (hrelates : Relates original body temps related)
    (hgraph : FlowGraph.ofBody original = .ok graph)
    (htemps : siteTemps original = .ok (temps, body))
    (hsolve : solve steps graph (analysis body temps) = .ok solution) :
    match eliminateCommonTerms steps original with
    | .ok (_, after) => WellFormed after ∧ ∃ sets edits visits copies changed,
        Found original body temps graph solution related graph.reversePostorder sets edits visits ∧
        Shape body changed edits copies ∧ Renamed sets.root changed after
    | .error fault => fault = .reservedKey ∧
        KeyKind.inst.reserved ≤ original.records.size + 4 * original.stmts.length := by
  obtain ⟨temps', body', htemps', hsited⟩ := siteTemps_ok wf
  rw [htemps] at htemps'
  cases htemps'
  have hflowing := flowing_solution hsited wf hsolve
  obtain ⟨sets, edits, visits, hedits, hfound⟩ := findEdits_ok hrelates hsited wf hflowing
  have hnodup : (visits.map Visit.block).Nodup := by
    rw [hfound.blocks]
    exact graph.nodup_reversePostorder
  -- a statement is edited twice at most, once for its value and once for its copy
  have habout := about_visits hsited wf hnodup hfound.visited
  rw [← hfound.edits] at habout
  have hlength : edits.length ≤ 2 * original.stmts.length := by
    refine Nat.le_trans habout.length (Nat.mul_le_mul_left 2 ?_)
    refine List.Nodup.length_le_of_subset
      ((hsited.wellFormed wf).flatMap_stmtsOf_nodup hnodup) fun stmt hstmt => ?_
    obtain ⟨block, -, hmem⟩ := List.mem_flatMap.mp hstmt
    exact hsited.stmts_eq ▸ Body.mem_stmts_of_stmtsOf hmem
  have happlied := shape_of_edits (Shape.start (hsited.wellFormed wf))
    (hfound.admits hsited wf) hsited.temp_location habout.distinct
  rw [eliminateCommonTerms, hgraph]
  simp only [bind, Except.bind, htemps, hsolve, hedits]
  cases hchanged : edits.foldlM applyEdit body with
  | error fault =>
      rw [hchanged] at happlied
      refine ⟨happlied.1, Nat.le_trans happlied.2 ?_⟩
      rw [hsited.records, List.nil_append]
      omega
  | ok changed =>
      rw [hchanged] at happlied
      obtain ⟨copies, hshape⟩ := happlied
      rw [List.nil_append] at hshape
      have hdone : ∀ {after : Body}, Renamed sets.root changed after → WellFormed after :=
        wellFormed_renamed hshape.wf hshape.locations hrelates hfound.ordered hfound.unified
      dsimp only
      -- if no temporaries were unified, there is nothing to rename
      by_cases htrivial : sets.isTrivial = true
      · have hrenamed := Renamed.refl (DisjointSets.root_of_isTrivial htrivial) changed
        rw [if_pos htrivial]
        exact ⟨hdone hrenamed, sets, edits, visits, copies, changed, hfound, hshape, hrenamed⟩
      · obtain ⟨after, hafter, hrenamed⟩ := renameAliases_ok hfound.ordered hshape.wf
        rw [if_neg htrivial]
        simp only [hafter]
        exact ⟨hdone hrenamed, sets, edits, visits, copies, changed, hfound, hshape, hrenamed⟩

/-- What comes of a body without temporaries whose terms are known. -/
theorem eliminateCommonTerms_rewritten {steps : Nat} {original body : Body} {graph : FlowGraph}
    {temps : Std.ExtTreeMap Inst Loc} {solution : Solution Available} (wf : WellFormed original)
    (hno : original.HasNoTemp) (hgraph : FlowGraph.ofBody original = .ok graph)
    (htemps : siteTemps original = .ok (temps, body))
    (hsolve : solve steps graph (analysis body temps) = .ok solution) :
    match eliminateCommonTerms steps original with
    | .ok (_, after) => WellFormed after ∧ ∃ sets edits visits copies,
        Rewritten original body after temps graph solution sets edits visits copies
    | .error fault => fault = .reservedKey ∧
        KeyKind.inst.reserved ≤ original.records.size + 4 * original.stmts.length := by
  obtain ⟨temps', body', htemps', hsited⟩ := siteTemps_ok wf
  rw [htemps] at htemps'
  cases htemps'
  have hresult := eliminateCommonTerms_renamed wf (relates_related hno hsited) hgraph htemps hsolve
  cases heliminated : eliminateCommonTerms steps original with
  | error fault =>
      rw [heliminated] at hresult
      exact hresult
  | ok result =>
      rw [heliminated] at hresult
      obtain ⟨wf', sets, edits, visits, copies, changed, hfound, hshape, hrenamed⟩ := hresult
      exact ⟨wf', sets, edits, visits, copies,
        rewritten_of_shape wf hsited (FlowGraph.of_ofBody hgraph) (settled_of_solve hsolve)
          (flowing_solution hsited wf hsolve) hfound hshape hrenamed⟩

/-! ## Runs of the changed body -/

/-- The analysis of the terms of a body settles within some steps. -/
def Solves (steps : Nat) (body : Body) : Prop :=
  ∃ graph temps sited solution, FlowGraph.ofBody body = .ok graph ∧
    siteTemps body = .ok (temps, sited) ∧ solve steps graph (analysis sited temps) = .ok solution

/-- Points of two runs at the same statement of a body, with the same contents
    of all locations that the body has. -/
structure SameView (setting : Setting) (body after : Body) (config config' : Config) : Prop where
  block : config'.block = config.block
  stmt : config'.rest.head? = config.rest.head?
  calls : config'.calls = config.calls
  globals : config'.store.globals = config.store.globals
  contents : ∀ loc : Loc, loc.index < body.locations.size →
    after.read setting config'.store loc = body.read setting config.store loc

/-- Runs that match show the same. -/
theorem Rewritten.sameView {setting : Setting} {original body after : Body}
    {temps : Std.ExtTreeMap Inst Loc} {graph : FlowGraph} {solution : Solution Available}
    {sets : DisjointSets .loc} {edits : List Edit} {visits : List Visit}
    {copies : Inst → List Inst} {config config' : Config}
    (h : Rewritten original body after temps graph solution sets edits visits copies)
    (hmatch : Match setting original body temps solution sets visits copies config config') :
    SameView setting original after config config' where
  block := hmatch.block
  stmt := by
    rw [hmatch.rest]
    cases config.rest <;> rfl
  calls := hmatch.calls
  globals := hmatch.stores.globals
  contents loc hloc := (h.read_eq _ _).trans (hmatch.stores.read h.sited hloc)

/-- The changed body is well-formed, and runs along with the original one. -/
theorem eliminateCommonTerms_follows {steps : Nat} {body : Body} (wf : WellFormed body)
    (hno : body.HasNoTemp) (hsolves : Solves steps body) {setting : Setting}
    (hfields : setting.Separates body) (store : Store) :
    match eliminateCommonTerms steps body with
    | .ok (_, after) => WellFormed after ∧
        Behaviour.Same (body.behaviour setting store) (after.behaviour setting store) ∧
        System.Paced (body.execution setting) (after.execution setting)
          (SameView setting body after) (body.start store) (after.start store)
    | .error fault => fault = .reservedKey ∧
        KeyKind.inst.reserved ≤ body.records.size + 4 * body.stmts.length := by
  obtain ⟨graph, temps, sited, solution, hgraph, htemps, hsolve⟩ := hsolves
  have hresult := eliminateCommonTerms_rewritten wf hno hgraph htemps hsolve
  cases heliminated : eliminateCommonTerms steps body with
  | error fault =>
      rw [heliminated] at hresult
      exact hresult
  | ok result =>
      obtain ⟨count, after⟩ := result
      rw [heliminated] at hresult
      obtain ⟨wf', sets, edits, visits, copies, h⟩ := hresult
      have hstart : Match setting body sited temps solution sets visits copies (body.start store)
          (after.start store) := h.start wf.blocks_pos store
      have hstep : ∀ config config',
          Match setting body sited temps solution sets visits copies config config' →
            ∃ k, System.StepFollowed (after.execution setting)
              (Match setting body sited temps solution sets visits copies) config' k
              ((body.execution setting).step config) :=
        fun _ _ hmatch => h.follow hfields hmatch
      -- the two runs step along together, so their behaviours and their pace agree
      refine ⟨wf', System.same_of_steps (fun _ _ hmatch => hmatch.calls) hstep hstart, ?_⟩
      exact (System.paced_of_steps hstep hstart).imp fun _ _ hmatch => h.sameView hmatch

/-- **COMMON SUBEXPRESSIONS ARE ELIMINATED SOUNDLY**: the changed body of a
    body without temporaries makes the same calls, ends in the same way, and
    has the same contents of all old locations at every old statement.  There
    is a changed body, unless the records use up all keys. -/
theorem eliminateCommonTerms_same_runs {steps : Nat} {body : Body} (wf : WellFormed body)
    (hno : body.HasNoTemp) (hsolves : Solves steps body) {setting : Setting}
    (hfields : setting.Separates body) (store : Store) :
    match eliminateCommonTerms steps body with
    | .ok (_, after) =>
        Behaviour.Same (body.behaviour setting store) (after.behaviour setting store) ∧
        System.Paced (body.execution setting) (after.execution setting)
          (SameView setting body after) (body.start store) (after.start store)
    | .error fault => fault = .reservedKey ∧
        KeyKind.inst.reserved ≤ body.records.size + 4 * body.stmts.length := by
  have hfollows := eliminateCommonTerms_follows wf hno hsolves hfields store
  cases heliminated : eliminateCommonTerms steps body with
  | error fault =>
      rw [heliminated] at hfollows
      exact hfollows
  | ok result =>
      rw [heliminated] at hfollows
      exact hfollows.2

/-- A body that computes one sum on either of two paths, and once more where
    they meet. -/
def joinedSums : Body where
  name := ⟨0⟩
  records := #[.load ⟨0⟩, .branch ⟨0⟩ ⟨0⟩,
    .load ⟨0⟩, .load ⟨1⟩, .binary .add ⟨2⟩ ⟨3⟩, .save ⟨4⟩ ⟨2⟩, .jump ⟨1⟩,
    .load ⟨0⟩, .load ⟨1⟩, .binary .add ⟨7⟩ ⟨8⟩, .save ⟨9⟩ ⟨3⟩,
    .load ⟨0⟩, .load ⟨1⟩, .binary .add ⟨11⟩ ⟨12⟩, .save ⟨13⟩ ⟨4⟩, .ret none]
  locations := #[.localVar ⟨1⟩, .localVar ⟨2⟩, .localVar ⟨3⟩, .localVar ⟨4⟩, .global ⟨5⟩]
  labels := #[some ⟨2⟩, some ⟨3⟩]
  blocks := #[⟨none, [⟨1⟩]⟩, ⟨none, [⟨5⟩, ⟨6⟩]⟩, ⟨some ⟨0⟩, [⟨10⟩]⟩, ⟨some ⟨1⟩, [⟨14⟩, ⟨15⟩]⟩]

/-- A setting in which nothing is called. -/
def quietSetting : Setting where
  field name := toString name.index
  routine name := toString name.index
  literal _ := 0
  environment _ := ⟨fun _ => 0, .ok 0⟩
  args _ := 0

/-- A sum on both branches of a join is computed once behind it. -/
theorem joinedSums_same_runs :
    (eliminateCommonTerms 40 joinedSums).toOption.map Prod.fst = some 1 ∧
    match eliminateCommonTerms 40 joinedSums with
    | .ok (_, after) =>
        Behaviour.Same (joinedSums.behaviour quietSetting ⟨fun _ => some 3, fun _ => 0⟩)
          (after.behaviour quietSetting ⟨fun _ => some 3, fun _ => 0⟩) ∧
        System.Paced (joinedSums.execution quietSetting) (after.execution quietSetting)
          (SameView quietSetting joinedSums after)
          (joinedSums.start ⟨fun _ => some 3, fun _ => 0⟩)
          (after.start ⟨fun _ => some 3, fun _ => 0⟩)
    | .error fault => fault = .reservedKey ∧ KeyKind.inst.reserved ≤
        joinedSums.records.size + 4 * joinedSums.stmts.length := by
  refine ⟨by decide +kernel, eliminateCommonTerms_same_runs (by decide +kernel) ?_
    ⟨_, _, _, _, rfl, rfl, rfl⟩ ?_ _⟩
  · intro i hi
    exact absurd (Array.mem_of_getElem? hi) (by simp [joinedSums])
  · intro a b i j ha hb _
    have hfield : ∀ {name : Symbol} {k : Nat},
        joinedSums.locations[k]? = some (.global name) → name = ⟨5⟩ := by
      intro name k hk
      simpa [joinedSums] using Array.mem_of_getElem? hk
    rw [hfield ha, hfield hb]

end DecafBackend.CommonTerms
