import DecafBackend.Proofs.Agreement

/-! # Points of a body

    Where control can be, and where it can go in one step.  A run only goes
    where control can go, and what a step does to the contents of the locations
    depends on the command it performs.

    * `Point`, `Body.Leads` — points, and the next ones
    * `Changes` — what a command does to the contents of the locations
    * `stepFrom_going` — a step of a run, as a move to a next point
    * `WellFormed.at_leads`, `WellFormed.leads_cases` — moves keep to the points
      that control can come to, and leave a block along an edge only -/

namespace DecafBackend

/-- A place between two statements: the block and what is left of it. -/
structure Point where
  /-- The block. -/
  block : Block
  /-- The statements of the block that are still to run. -/
  rest : List Inst

/-- Where a run is. -/
def Config.point (config : Config) : Point := ⟨config.block, config.rest⟩

namespace Body

/-- The start of a block. -/
def startOf (body : Body) (block : Block) : Point := ⟨block, body.stmtsOf block⟩

/-- Control can go from a point to another one. -/
inductive Leads (body : Body) : Point → Point → Prop
  /-- Over a statement that lets control through. -/
  | fall {block : Block} {stmt : Inst} {rest : List Inst} {command : Command}
      (hcommand : body.command? stmt = some command) (hfalls : command.isTerminator = false) :
      Leads body ⟨block, stmt :: rest⟩ ⟨block, rest⟩
  /-- To the target of a statement. -/
  | jump {block target : Block} {stmt : Inst} {rest : List Inst} {command : Command} {label : Label}
      (hcommand : body.command? stmt = some command) (hlabel : command.target? = some label)
      (hplaced : body.labels[label.index]? = some (some target)) :
      Leads body ⟨block, stmt :: rest⟩ (body.startOf target)
  /-- From the end of a block to the next one. -/
  | leave {block target : Block} (hnext : body.next? block = some target) :
      Leads body ⟨block, []⟩ (body.startOf target)

/-- What a command does to the contents of the locations. -/
inductive Changes (setting : Setting) (body : Body) (store : Store) : Command → Store → Prop
  /-- Nothing, if it writes nothing and calls nothing. -/
  | idle {command : Command} (hdest : command.dest? = none)
      (hcall : ∀ stmt, command.callInst? stmt = none) : Changes setting body store command store
  /-- A callee may write the fields. -/
  | call (target : Symbol) (args : List Loc) (isExternal : Bool) (saved : List Register)
      (globals : Globals) :
      Changes setting body store (.call target args isExternal saved) { store with globals }
  /-- A save writes its value. -/
  | save {value : Value} {dest : Loc} {calls : List CallEvent} {reached : Reached} {store' : Store}
      (hvalue : body.evaluateValue setting store calls value = .ok reached)
      (hwrite : body.write setting reached.store dest reached.value = some store') :
      Changes setting body store (.save value dest) store'

variable {setting : Setting} {body : Body}

/-- Values that are no calls leave all contents as they are, and a callee may
    write the fields only. -/
theorem evaluateValue_reached {store : Store} {calls : List CallEvent} {value : Value}
    {reached : Reached} (h : body.evaluateValue setting store calls value = .ok reached) :
    ∃ globals, reached.store = { store with globals } ∧
      (value.callInst? = none → globals = store.globals) := by
  have hsame : reached.store = store → ∃ globals, reached.store = { store with globals } ∧
      (value.callInst? = none → globals = store.globals) :=
    fun heq => ⟨store.globals, heq, fun _ => rfl⟩
  -- by the form of the value: only a call can write a field
  cases value with
  | load src =>
      simp only [evaluateValue] at h
      split at h
      · cases h; exact hsame rfl
      · cases h
  | param inst index => cases h; exact hsame rfl
  | unary inst op operand =>
      simp only [evaluateValue] at h
      split at h
      · cases h; exact hsame rfl
      · cases h
  | binary inst op lhs rhs =>
      simp only [evaluateValue] at h
      split at h
      · split at h
        · cases h; exact hsame rfl
        · cases h
      · cases h
  | call inst target args isExternal saved =>
      simp only [evaluateValue, callOut] at h
      split at h
      · rw [callWith] at h
        split at h
        · cases h; exact ⟨_, rfl, fun hnone => by cases hnone⟩
        · cases h
      · cases h

/-- Control goes to where a label was placed. -/
theorem goTo_going {config config' : Config} {label : Label}
    (h : body.goTo config label = .going config') : ∃ target,
      body.labels[label.index]? = some (some target) ∧ config' = body.enter config target := by
  rw [goTo] at h
  split at h
  · next target htarget =>
      cases h
      exact ⟨target, htarget, rfl⟩
  · cases h

/-- What it takes for a command to let a run go on. -/
theorem perform_going {config config' : Config} {stmt : Inst} {command : Command}
    (hcommand : body.command? stmt = some command)
    (h : body.perform setting config command = .going config') :
    Changes setting body config.store command config'.store ∧
      body.Leads ⟨config.block, stmt :: config.rest⟩ config'.point := by
  have hover : command.isTerminator = false →
      body.Leads ⟨config.block, stmt :: config.rest⟩ ⟨config.block, config.rest⟩ :=
    fun hfalls => .fall hcommand hfalls
  -- by the command: what it does to the store, and where it leads
  cases command with
  | save value dest =>
      simp only [perform] at h
      split at h
      · cases h
      · next reached hvalue =>
          split at h
          · next store hwrite =>
              cases h
              exact ⟨.save hvalue hwrite, hover rfl⟩
          · cases h
  | call target args isExternal saved =>
      simp only [perform, callOut] at h
      split at h
      · cases h
      · next reached hreached =>
          cases h
          split at hreached
          · rw [callWith] at hreached
            split at hreached
            · cases hreached
              exact ⟨.call target args isExternal saved _, hover rfl⟩
            · cases hreached
          · cases hreached
  | use loc => cases h; exact ⟨.idle rfl fun _ => rfl, hover rfl⟩
  | label place => cases h; exact ⟨.idle rfl fun _ => rfl, hover rfl⟩
  | jump label =>
      obtain ⟨target, hplaced, rfl⟩ := goTo_going h
      exact ⟨.idle rfl fun _ => rfl, .jump hcommand rfl hplaced⟩
  | branch cond label =>
      simp only [perform] at h
      split at h
      · split at h
        · obtain ⟨target, hplaced, rfl⟩ := goTo_going h
          exact ⟨.idle rfl fun _ => rfl, .jump hcommand rfl hplaced⟩
        · cases h
          exact ⟨.idle rfl fun _ => rfl, hover rfl⟩
      · cases h
  | ret value =>
      cases value with
      | none => cases h
      | some value =>
          simp only [perform] at h
          split at h
          · cases h
          · cases h
  | exit code => cases h

/-- A step of a run goes on with the next block, or performs a command. -/
theorem stepFrom_going {config config' : Config}
    (hcommands : ∀ stmt ∈ config.rest, ∃ command, body.command? stmt = some command)
    (h : body.stepFrom setting config = .going config') :
    body.Leads config.point config'.point ∧
      ((config.rest = [] ∧ config'.store = config.store) ∨
        ∃ stmt rest command, config.rest = stmt :: rest ∧ body.command? stmt = some command ∧
          Changes setting body config.store command config'.store) := by
  cases hrest : config.rest with
  | nil =>
      rw [stepFrom_nil hrest, leave] at h
      split at h
      · next target hnext =>
          cases h
          refine ⟨?_, Or.inl ⟨rfl, rfl⟩⟩
          rw [Config.point, hrest]
          exact .leave hnext
      · cases h
  | cons stmt rest =>
      obtain ⟨command, hcommand⟩ := hcommands stmt (by rw [hrest]; exact List.mem_cons_self)
      rw [stepFrom_eq hrest hcommand] at h
      obtain ⟨hchanges, hleads⟩ := perform_going hcommand h
      refine ⟨?_, Or.inr ⟨stmt, rest, command, rfl, hcommand, hchanges⟩⟩
      rw [Config.point, hrest]
      exact hleads

end Body

namespace WellFormed

variable {body : Body} (wf : WellFormed body)
include wf

/-- The statements ahead of a point are commands. -/
theorem commands_of_at {block : Block} {rest : List Inst} (h : body.At block rest) :
    ∀ stmt ∈ rest, ∃ command, body.command? stmt = some command ∧ command.Valid body stmt := by
  intro stmt hstmt
  obtain ⟨before, hsplit, -⟩ := h.reached
  refine wf.command_of_mem (?_ : stmt ∈ body.stmtsOf block)
  rw [hsplit]
  exact List.mem_append_right _ hstmt

/-- Moves keep to the points that control can come to. -/
theorem at_leads {point next : Point} (h : body.At point.block point.rest)
    (hleads : body.Leads point next) : body.At next.block next.rest := by
  cases hleads with
  | fall hcommand hfalls => exact h.next hcommand hfalls
  | jump hcommand hlabel hplaced =>
      obtain ⟨block, hblock, hlt⟩ :=
        (wf.valid (Body.mem_stmts_of_stmtsOf h.mem) hcommand).target _ hlabel
      rw [hplaced] at hblock
      cases hblock
      exact Body.At.start hlt
  | leave hnext => exact Body.At.start (next?_lt hnext)

/-- A move goes over a statement, or along an edge from the end of a block. -/
theorem leads_cases {graph : FlowGraph} (hflow : graph.Of body) {point next : Point}
    (h : body.At point.block point.rest) (hleads : body.Leads point next) :
    (next.block = point.block ∧ ∃ stmt, point.rest = stmt :: next.rest) ∨
      (next = body.startOf next.block ∧ next.block ∈ graph.successors point.block ∧
        (point.rest = [] ∨ ∃ stmt command label, point.rest = [stmt] ∧
          body.command? stmt = some command ∧ command.target? = some label)) := by
  cases hleads with
  | fall hcommand hfalls => exact Or.inl ⟨rfl, _, rfl⟩
  | jump hcommand hlabel hplaced =>
      obtain ⟨rfl, htarget⟩ := wf.mem_successors_of_target h hcommand hlabel hplaced
        (hflow.successors h.block_lt)
      exact Or.inr ⟨rfl, htarget, Or.inr ⟨_, _, _, rfl, hcommand, hlabel⟩⟩
  | leave hnext =>
      refine Or.inr ⟨rfl, ?_, Or.inl rfl⟩
      refine mem_successors_of_next h hnext (fun stmt hstmt => ?_) (hflow.successors h.block_lt)
      obtain ⟨command, hcommand, -⟩ := wf.command_of_mem hstmt
      exact ⟨command, hcommand⟩

end WellFormed

end DecafBackend
