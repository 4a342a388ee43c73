import DecafBackend.IR.Body
import DecafBackend.Proofs.Behaviour

/-! # Execution of bodies

    A body runs statement by statement.  Control that reaches the end of a
    block goes on with the next block, and control that reaches the end of the
    last block returns.  The variables and temporaries of the method start out
    undefined; reading one before it is written leads nowhere, and so does a
    record that stands where it cannot.

    * `Setting` — what is fixed during a run
    * `Store`, `Config` — what changes
    * `Body.compute`, `Body.callOut`, `Body.evaluate` — values
    * `Body.stepFrom`, `Body.execution` — statements and runs -/

namespace DecafBackend

/-- What is fixed while a method runs. -/
structure Setting where
  /-- What the operators compute. -/
  arithmetic : Arithmetic := .standard
  /-- The names of the fields. -/
  field : Symbol → String
  /-- The names of callees. -/
  routine : Symbol → String
  /-- The addresses of literal texts. -/
  literal : Symbol → Word
  /-- What answers calls. -/
  environment : Environment
  /-- The incoming arguments. -/
  args : Nat → Word

/-- The contents of the locations. -/
structure Store where
  /-- The variables and temporaries of the method, as far as defined. -/
  locals : Loc → Option Word
  /-- The fields. -/
  globals : Globals

/-- A point of a run. -/
structure Config where
  /-- The block that is running. -/
  block : Block
  /-- The statements of the block that are still to run. -/
  rest : List Inst
  /-- The contents of the locations. -/
  store : Store
  /-- The calls so far, the last one first. -/
  calls : List CallEvent

namespace Config

/-- The end of a run at a point. -/
def stop (config : Config) (outcome : Outcome) : Ending :=
  ⟨outcome, config.store.globals, config.calls⟩

end Config

namespace Store

/-- Writes a variable or temporary. -/
def setLocal (store : Store) (loc : Loc) (word : Word) : Store :=
  { store with locals := fun other => if other = loc then some word else store.locals other }

/-- Writes a field. -/
def setGlobal (store : Store) (name : String) (word : Word) : Store :=
  { store with globals := fun other => if other = name then word else store.globals other }

@[simp] theorem setLocal_locals_same (store : Store) (loc : Loc) (word : Word) :
    (store.setLocal loc word).locals loc = some word := if_pos rfl

/-- A write to a location leaves the others. -/
theorem setLocal_locals_other {loc other : Loc} (h : other ≠ loc) (store : Store) (word : Word) :
    (store.setLocal loc word).locals other = store.locals other := if_neg h

@[simp] theorem setLocal_globals (store : Store) (loc : Loc) (word : Word) :
    (store.setLocal loc word).globals = store.globals := rfl

@[simp] theorem setGlobal_locals (store : Store) (name : String) (word : Word) :
    (store.setGlobal name word).locals = store.locals := rfl

@[simp] theorem setGlobal_globals_same (store : Store) (name : String) (word : Word) :
    (store.setGlobal name word).globals name = word := if_pos rfl

/-- A write to a field leaves the others. -/
theorem setGlobal_globals_other {name other : String} (h : other ≠ name) (store : Store)
    (word : Word) : (store.setGlobal name word).globals other = store.globals other := if_neg h

end Store

namespace Body

variable (setting : Setting) (body : Body)

/-! ## Locations -/

/-- The contents of a location of some kind. -/
def readAs (store : Store) (loc : Loc) : Location → Option Word
  | .global name => some (store.globals (setting.field name))
  | .localVar _ | .temp => store.locals loc
  | .constant value => some value
  | .literal text => some (setting.literal text)

/-- The contents of a location. -/
def read (store : Store) (loc : Loc) : Option Word :=
  body.locations[loc.index]?.bind (readAs setting store loc)

/-- Writes a location of some kind, if it can be written. -/
def writeAs (store : Store) (loc : Loc) (word : Word) : Location → Option Store
  | .global name => some (store.setGlobal (setting.field name) word)
  | .localVar _ | .temp => some (store.setLocal loc word)
  | .constant _ | .literal _ => none

/-- Writes a location, if it can be written. -/
def write (store : Store) (loc : Loc) (word : Word) : Option Store :=
  body.locations[loc.index]?.bind (writeAs setting store loc word)

/-! ## Values -/

/-- The value of an operand, which is a load. -/
def operand (store : Store) (inst : Inst) : Option Word :=
  match body.records[inst.index]? with
  | some (.load src) => body.read setting store src
  | _ => none

/-- The value of a record that calls nothing. -/
def compute (store : Store) : Record → Except Outcome Word
  | .load src => (body.read setting store src).elim (.error .stuck) .ok
  | .param index => .ok (setting.args index)
  | .unary op operand =>
    match body.operand setting store operand with
    | some a => .ok (op.apply a)
    | none => .error .stuck
  | .binary op lhs rhs =>
    match body.operand setting store lhs, body.operand setting store rhs with
    | some a, some b => (setting.arithmetic.apply op a b).elim (.error (.aborted .trap)) .ok
    | _, _ => .error .stuck
  | _ => .error .stuck

/-- The state of a run without its position. -/
structure Reached where
  /-- The value computed. -/
  value : Word
  /-- The contents of the locations. -/
  store : Store
  /-- The calls so far. -/
  calls : List CallEvent

/-- Makes a call with some argument values. -/
def callWith (store : Store) (calls : List CallEvent) (target : Symbol) (args : List Word) :
    Except Ending Reached :=
  let calls := ⟨setting.routine target, args, store.globals⟩ :: calls
  let reply := setting.environment calls
  match reply.result with
  | .ok value => .ok ⟨value, { store with globals := reply.globals }, calls⟩
  | .error abort => .error ⟨.aborted abort, reply.globals, calls⟩

/-- Makes a call. -/
def callOut (store : Store) (calls : List CallEvent) (target : Symbol) (args : List Loc) :
    Except Ending Reached :=
  match args.mapM (body.read setting store) with
  | some words => callWith setting store calls target words
  | none => .error ⟨.stuck, store.globals, calls⟩

/-- The value of a record. -/
def evaluate (store : Store) (calls : List CallEvent) : Record → Except Ending Reached
  | .call target args _ _ => body.callOut setting store calls target args
  | record =>
    match body.compute setting store record with
    | .ok value => .ok ⟨value, store, calls⟩
    | .error outcome => .error ⟨outcome, store.globals, calls⟩

/-- The value of the record with a key. -/
def evaluateAt (store : Store) (calls : List CallEvent) (inst : Inst) : Except Ending Reached :=
  match body.records[inst.index]? with
  | some record => body.evaluate setting store calls record
  | none => .error ⟨.stuck, store.globals, calls⟩

/-! ## Statements -/

/-- Statements depend on the blocks only. -/
theorem stmtsOf_congr {body body' : Body} (h : body'.blocks = body.blocks) (block : Block) :
    body'.stmtsOf block = body.stmtsOf block := by
  rw [stmtsOf, stmtsOf, h]

/-- Goes to the start of a block. -/
def enter (config : Config) (block : Block) : Config :=
  { config with block, rest := body.stmtsOf block }

/-- Goes to a label, if it is placed. -/
def goTo (config : Config) (label : Label) : Progress Config :=
  match body.labels[label.index]? with
  | some (some block) => .going (body.enter config block)
  | _ => .ended (config.stop .stuck)

/-- Runs a statement with a record; `config` is the point after it. -/
def stepOver (config : Config) : Record → Progress Config
  | .save value dest =>
    match body.evaluateAt setting config.store config.calls value with
    | .error ending => .ended ending
    | .ok reached =>
      match body.write setting reached.store dest reached.value with
      | some store => .going { config with store, calls := reached.calls }
      | none => .ended ⟨.stuck, reached.store.globals, reached.calls⟩
  | .call target args _ _ =>
    match body.callOut setting config.store config.calls target args with
    | .error ending => .ended ending
    | .ok reached => .going { config with store := reached.store, calls := reached.calls }
  | .use _ | .label _ => .going config
  | .jump target => body.goTo config target
  | .branch cond target =>
    match body.operand setting config.store cond with
    | some word => if word = 0 then body.goTo config target else .going config
    | none => .ended (config.stop .stuck)
  | .ret none => .ended (config.stop (.returned none))
  | .ret (some value) =>
    match body.operand setting config.store value with
    | some word => .ended (config.stop (.returned (some word)))
    | none => .ended (config.stop .stuck)
  | .exit code => .ended (config.stop (.aborted (.exit code)))
  | .load _ | .param _ | .unary _ _ | .binary _ _ _ => .ended (config.stop .stuck)

/-- Leaves the end of a block. -/
def leave (config : Config) : Progress Config :=
  match body.next? config.block with
  | some block => .going (body.enter config block)
  | none => .ended (config.stop (.returned none))

/-- One step of a run. -/
def stepFrom (config : Config) : Progress Config :=
  match config.rest with
  | [] => body.leave config
  | stmt :: rest =>
    match body.records[stmt.index]? with
    | some record => body.stepOver setting { config with rest } record
    | none => .ended (config.stop .stuck)

/-! ## Calls are never forgotten -/

variable {setting} in
/-- Calls are added to those that were made. -/
theorem callWith_calls {store : Store} {calls : List CallEvent} {target : Symbol}
    {args : List Word} :
    match callWith setting store calls target args with
    | .ok reached => calls <:+ reached.calls
    | .error ending => calls <:+ ending.calls := by
  rw [callWith]
  cases (setting.environment (⟨setting.routine target, args, store.globals⟩ :: calls)).result with
  | ok value => exact List.suffix_cons _ _
  | error abort => exact List.suffix_cons _ _

/-- To call out adds to the calls that were made. -/
theorem callOut_calls (store : Store) (calls : List CallEvent) (target : Symbol)
    (args : List Loc) :
    match body.callOut setting store calls target args with
    | .ok reached => calls <:+ reached.calls
    | .error ending => calls <:+ ending.calls := by
  rw [callOut]
  cases args.mapM (body.read setting store) with
  | some words => exact callWith_calls
  | none => exact List.suffix_rfl

/-- To evaluate a value adds to the calls that were made. -/
theorem evaluateAt_calls (store : Store) (calls : List CallEvent) (inst : Inst) :
    match body.evaluateAt setting store calls inst with
    | .ok reached => calls <:+ reached.calls
    | .error ending => calls <:+ ending.calls := by
  rw [evaluateAt]
  cases body.records[inst.index]? with
  | none => exact List.suffix_rfl
  | some record =>
      cases record with
      | call target args isExternal saved =>
          exact callOut_calls setting body store calls target args
      | _ =>
          simp only [evaluate]
          cases body.compute setting store _ with
          | ok value => exact List.suffix_rfl
          | error outcome => exact List.suffix_rfl

/-- What a step leaves of the calls made before. -/
def Keeps (calls : List CallEvent) : Progress Config → Prop
  | .going config => calls <:+ config.calls
  | .ended ending => calls <:+ ending.calls

/-- Jumps keep the calls that were made. -/
theorem keeps_goTo (config : Config) (label : Label) :
    Keeps config.calls (body.goTo config label) := by
  rw [goTo]
  split
  · exact List.suffix_rfl
  · exact List.suffix_rfl

/-- Statements keep the calls that were made. -/
theorem keeps_stepOver (config : Config) (record : Record) :
    Keeps config.calls (body.stepOver setting config record) := by
  -- only calls add to the list of calls, and they add at its end
  cases record with
  | save value dest =>
      have hcalls := evaluateAt_calls setting body config.store config.calls value
      simp only [stepOver]
      cases hv : body.evaluateAt setting config.store config.calls value with
      | error ending => rw [hv] at hcalls; exact hcalls
      | ok reached =>
          rw [hv] at hcalls
          dsimp only
          cases body.write setting reached.store dest reached.value with
          | some store => exact hcalls
          | none => exact hcalls
  | call target args isExternal saved =>
      have hcalls := callOut_calls setting body config.store config.calls target args
      simp only [stepOver]
      cases hv : body.callOut setting config.store config.calls target args with
      | error ending => rw [hv] at hcalls; exact hcalls
      | ok reached => rw [hv] at hcalls; exact hcalls
  | use loc => exact List.suffix_rfl
  | label place => exact List.suffix_rfl
  | jump target => exact keeps_goTo body config target
  | branch cond target =>
      simp only [stepOver]
      cases body.operand setting config.store cond with
      | none => exact List.suffix_rfl
      | some word =>
          dsimp only
          by_cases hw : word = 0
          · rw [if_pos hw]; exact keeps_goTo body config target
          · rw [if_neg hw]; exact List.suffix_rfl
  | ret value =>
      cases value with
      | none => exact List.suffix_rfl
      | some value =>
          simp only [stepOver]
          cases body.operand setting config.store value with
          | none => exact List.suffix_rfl
          | some word => exact List.suffix_rfl
  | exit code => exact List.suffix_rfl
  | load src => exact List.suffix_rfl
  | param index => exact List.suffix_rfl
  | unary op operand => exact List.suffix_rfl
  | binary op lhs rhs => exact List.suffix_rfl

section

variable {setting body}

/-- At the end of a block control leaves it. -/
theorem stepFrom_nil {config : Config} (h : config.rest = []) :
    body.stepFrom setting config = body.leave config := by
  rw [stepFrom, h]

/-- At a statement control performs its record. -/
theorem stepFrom_cons {config : Config} {stmt : Inst} {rest : List Inst} {record : Record}
    (h : config.rest = stmt :: rest) (hrecord : body.records[stmt.index]? = some record) :
    body.stepFrom setting config = body.stepOver setting { config with rest } record := by
  simp only [stepFrom, h, hrecord]

/-- A statement without a record is stuck. -/
theorem stepFrom_absent {config : Config} {stmt : Inst} {rest : List Inst}
    (h : config.rest = stmt :: rest) (hrecord : body.records[stmt.index]? = none) :
    body.stepFrom setting config = .ended (config.stop .stuck) := by
  simp only [stepFrom, h, hrecord]

end

/-- Steps keep the calls that were made. -/
theorem keeps_stepFrom (config : Config) : Keeps config.calls (body.stepFrom setting config) := by
  cases hrest : config.rest with
  | nil =>
      rw [stepFrom_nil hrest, leave]
      cases body.next? config.block with
      | some block => exact List.suffix_rfl
      | none => exact List.suffix_rfl
  | cons stmt rest =>
      cases hrecord : body.records[stmt.index]? with
      | some record =>
          rw [stepFrom_cons hrest hrecord]
          exact keeps_stepOver setting body { config with rest } record
      | none =>
          rw [stepFrom_absent hrest hrecord]
          exact List.suffix_rfl

/-- The runs of a body. -/
def execution : System Config where
  step := body.stepFrom setting
  calls := Config.calls
  calls_going {config config'} h := by
    have hk := keeps_stepFrom setting body config
    rw [h] at hk
    exact hk
  calls_ended {config ending} h := by
    have hk := keeps_stepFrom setting body config
    rw [h] at hk
    exact hk

/-- The start of a run. -/
def start (store : Store) : Config := ⟨⟨0⟩, body.stmtsOf ⟨0⟩, store, []⟩

/-- The behaviour of a body that starts with some contents of the locations. -/
def behaviour (store : Store) : Behaviour := (body.execution setting).behaviour (body.start store)

end Body

end DecafBackend
