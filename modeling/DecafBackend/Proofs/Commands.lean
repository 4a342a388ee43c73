import DecafBackend.Proofs.Execution

/-! # Statements as commands

    The records of a statement, read as one command.  A command has the keys of
    the records that read locations, since registers are given to accesses;
    what it computes depends on the locations alone.

    * `Value`, `Command` — what a save stores, and what a statement does
    * `Body.command?` — the command of a statement
    * `valueTree_eq`, `reads_eq`, `callIn?_eq` — what the records of a statement
      own, read and call
    * `stepFrom_eq` — a statement runs as its command does -/

namespace DecafBackend

/-- What a save stores. -/
inductive Value
  /-- The contents of a location. -/
  | load (src : Access)
  /-- An incoming argument. -/
  | param (inst : Inst) (index : Nat)
  /-- An operator applied to a location. -/
  | unary (inst : Inst) (op : UnaryOp) (operand : Access)
  /-- An operator applied to two locations. -/
  | binary (inst : Inst) (op : BinaryOp) (lhs rhs : Access)
  /-- The result of a call. -/
  | call (inst : Inst) (target : Symbol) (args : List Loc) (isExternal : Bool)
      (saved : List Register)
deriving DecidableEq

/-- What a statement does. -/
inductive Command
  /-- Stores a value. -/
  | save (value : Value) (dest : Loc)
  /-- Makes a call and discards the result. -/
  | call (target : Symbol) (args : List Loc) (isExternal : Bool) (saved : List Register)
  /-- Reads a location. -/
  | use (loc : Loc)
  /-- Marks a jump target. -/
  | label (place : Label)
  /-- Goes to a target. -/
  | jump (target : Label)
  /-- Goes to a target when a location holds zero. -/
  | branch (cond : Access) (target : Label)
  /-- Returns. -/
  | ret (value : Option Access)
  /-- Ends the process. -/
  | exit (code : Int32)
deriving DecidableEq

namespace Value

/-- The record that computes a value. -/
def inst : Value → Inst
  | load src => src.inst
  | param inst _ | unary inst _ _ | binary inst _ _ _ | call inst _ _ _ _ => inst

/-- The records of a value, operands first. -/
def insts : Value → List Inst
  | load src => [src.inst]
  | param inst _ => [inst]
  | unary inst _ operand => [operand.inst, inst]
  | binary inst _ lhs rhs => [lhs.inst, rhs.inst, inst]
  | call inst _ _ _ _ => [inst]

/-- The reads of a value in order. -/
def reads : Value → List Access
  | load src => [src]
  | param _ _ => []
  | unary _ _ operand => [operand]
  | binary _ _ lhs rhs => [lhs, rhs]
  | call inst _ args _ _ => args.map (Access.mk inst)

/-- The call that makes a value. -/
def callInst? : Value → Option Inst
  | call inst _ _ _ _ => some inst
  | _ => none

end Value

namespace Command

/-- The records of a statement that its own record owns, operands first. -/
def owned : Command → List Inst
  | save value _ => value.insts
  | branch cond _ => [cond.inst]
  | ret (some value) => [value.inst]
  | _ => []

/-- The reads of a statement in order. -/
def reads (stmt : Inst) : Command → List Access
  | save value _ => value.reads
  | call _ args _ _ => args.map (Access.mk stmt)
  | use loc => [⟨stmt, loc⟩]
  | branch cond _ => [cond]
  | ret (some value) => [value]
  | _ => []

/-- The location that a statement writes. -/
def dest? : Command → Option Loc
  | save _ dest => some dest
  | _ => none

/-- The call that a statement makes. -/
def callInst? (stmt : Inst) : Command → Option Inst
  | save value _ => value.callInst?
  | call _ _ _ _ => some stmt
  | _ => none

/-- Where a statement may go to. -/
def target? : Command → Option Label
  | jump target | branch _ target => some target
  | _ => none

/-- Whether a statement ends its block. -/
def endsBlock : Command → Bool
  | jump _ | branch _ _ | ret _ | exit _ => true
  | _ => false

/-- Whether control never reaches the next statement. -/
def isTerminator : Command → Bool
  | jump _ | ret _ | exit _ => true
  | _ => false

variable {command : Command}

/-- Only saves write locations. -/
theorem eq_save {loc : Loc} (h : command.dest? = some loc) :
    ∃ value, command = .save value loc := by
  cases command with
  | save value dest =>
      cases h
      exact ⟨value, rfl⟩
  | call | use | label | jump | branch | ret | exit => cases h

/-- A command with a target ends its block. -/
theorem endsBlock_of_target {label : Label} (h : command.target? = some label) :
    command.endsBlock = true := by
  cases command with
  | jump | branch => rfl
  | save | call | use | label | ret | exit => cases h

/-- A command that control does not pass ends its block. -/
theorem endsBlock_of_isTerminator (h : command.isTerminator = true) :
    command.endsBlock = true := by
  cases command with
  | jump | ret | exit => rfl
  | save | call | use | label | branch => cases h

/-- A command with a call does not end its block. -/
theorem endsBlock_of_callInst {stmt call : Inst} (h : command.callInst? stmt = some call) :
    command.endsBlock = false := by
  cases command with
  | save | call => rfl
  | use | label | jump | branch | ret | exit => cases h

/-- Control passes a command that does not end its block. -/
theorem isTerminator_eq_false (h : command.endsBlock = false) : command.isTerminator = false :=
  Bool.eq_false_iff.mpr fun hterminator =>
    Bool.eq_false_iff.mp h (endsBlock_of_isTerminator hterminator)

end Command

namespace Body

/-! ## Reading commands -/

/-- The read that a record makes, if it is a load. -/
def access? (body : Body) (inst : Inst) : Option Access :=
  match body.records[inst.index]? with
  | some (.load src) => some ⟨inst, src⟩
  | _ => none

/-- The value that a record computes, if its operands are loads. -/
def value? (body : Body) (inst : Inst) : Option Value :=
  match body.records[inst.index]? with
  | some (.load src) => some (.load ⟨inst, src⟩)
  | some (.param index) => some (.param inst index)
  | some (.unary op operand) => (body.access? operand).map (.unary inst op)
  | some (.binary op lhs rhs) =>
    (body.access? lhs).bind fun lhs => (body.access? rhs).map (.binary inst op lhs)
  | some (.call target args isExternal saved) => some (.call inst target args isExternal saved)
  | _ => none

/-- The command of a statement, if its operands are as they should be. -/
def command? (body : Body) (stmt : Inst) : Option Command :=
  match body.records[stmt.index]? with
  | some (.save value dest) => (body.value? value).map (.save · dest)
  | some (.call target args isExternal saved) => some (.call target args isExternal saved)
  | some (.use loc) => some (.use loc)
  | some (.label place) => some (.label place)
  | some (.jump target) => some (.jump target)
  | some (.branch cond target) => (body.access? cond).map (.branch · target)
  | some (.ret none) => some (.ret none)
  | some (.ret (some value)) => (body.access? value).map (.ret ∘ some)
  | some (.exit code) => some (.exit code)
  | _ => none

/-- An access is a load that is found under its key. -/
theorem access?_eq_some {body : Body} {inst : Inst} {access : Access} :
    body.access? inst = some access ↔
      access.inst = inst ∧ body.records[inst.index]? = some (.load access.loc) := by
  rw [access?]
  cases hrecord : body.records[inst.index]? with
  | none => simp
  | some record =>
      cases record <;> simp
      obtain ⟨i, l⟩ := access
      simp only [Access.mk.injEq]
      exact ⟨fun h => ⟨h.1.symm, h.2⟩, fun h => ⟨h.1.symm, h.2⟩⟩

/-- The records that make up a value. -/
def IsValue (body : Body) : Value → Prop
  | .load src => body.records[src.inst.index]? = some (.load src.loc)
  | .param inst index => body.records[inst.index]? = some (.param index)
  | .unary inst op operand => body.records[inst.index]? = some (.unary op operand.inst) ∧
      body.records[operand.inst.index]? = some (.load operand.loc)
  | .binary inst op lhs rhs => body.records[inst.index]? = some (.binary op lhs.inst rhs.inst) ∧
      body.records[lhs.inst.index]? = some (.load lhs.loc) ∧
      body.records[rhs.inst.index]? = some (.load rhs.loc)
  | .call inst target args isExternal saved =>
      body.records[inst.index]? = some (.call target args isExternal saved)

/-- The records that make up a command. -/
def IsCommand (body : Body) (stmt : Inst) : Command → Prop
  | .save value dest => body.records[stmt.index]? = some (.save value.inst dest) ∧
      body.IsValue value
  | .call target args isExternal saved =>
      body.records[stmt.index]? = some (.call target args isExternal saved)
  | .use loc => body.records[stmt.index]? = some (.use loc)
  | .label place => body.records[stmt.index]? = some (.label place)
  | .jump target => body.records[stmt.index]? = some (.jump target)
  | .branch cond target => body.records[stmt.index]? = some (.branch cond.inst target) ∧
      body.records[cond.inst.index]? = some (.load cond.loc)
  | .ret none => body.records[stmt.index]? = some (.ret none)
  | .ret (some value) => body.records[stmt.index]? = some (.ret (some value.inst)) ∧
      body.records[value.inst.index]? = some (.load value.loc)
  | .exit code => body.records[stmt.index]? = some (.exit code)

/-- A value is found under its key, just where its records are there. -/
theorem value?_eq_some {body : Body} {inst : Inst} {value : Value} :
    body.value? inst = some value ↔ value.inst = inst ∧ body.IsValue value := by
  constructor
  · intro h
    -- each constructor belongs to one kind of record, so both sides are taken apart alike
    rw [value?] at h
    cases hrecord : body.records[inst.index]? with
    | none => rw [hrecord] at h; cases h
    | some record =>
        rw [hrecord] at h
        cases record with
        | load src => cases h; exact ⟨rfl, hrecord⟩
        | param index => cases h; exact ⟨rfl, hrecord⟩
        | call target args isExternal saved => cases h; exact ⟨rfl, hrecord⟩
        | unary op operand =>
            obtain ⟨a, ha, rfl⟩ := Option.map_eq_some_iff.mp h
            obtain ⟨rfl, hload⟩ := access?_eq_some.mp ha
            exact ⟨rfl, hrecord, hload⟩
        | binary op lhs rhs =>
            obtain ⟨a, ha, h⟩ := Option.bind_eq_some_iff.mp h
            obtain ⟨b, hb, rfl⟩ := Option.map_eq_some_iff.mp h
            obtain ⟨rfl, hleft⟩ := access?_eq_some.mp ha
            obtain ⟨rfl, hright⟩ := access?_eq_some.mp hb
            exact ⟨rfl, hrecord, hleft, hright⟩
        | save | use | label | jump | branch | ret | exit => cases h
  · rintro ⟨rfl, h⟩
    cases value with
    | load src => rw [value?, Value.inst, show body.records[src.inst.index]? = _ from h]
    | param inst index => rw [value?, Value.inst, show body.records[inst.index]? = _ from h]
    | call inst target args isExternal saved =>
        rw [value?, Value.inst, show body.records[inst.index]? = _ from h]
    | unary inst op operand =>
        have ha : body.access? operand.inst = some operand := access?_eq_some.mpr ⟨rfl, h.2⟩
        rw [value?, Value.inst, h.1]
        simp only [ha, Option.map_some]
    | binary inst op lhs rhs =>
        have ha : body.access? lhs.inst = some lhs := access?_eq_some.mpr ⟨rfl, h.2.1⟩
        have hb : body.access? rhs.inst = some rhs := access?_eq_some.mpr ⟨rfl, h.2.2⟩
        rw [value?, Value.inst, h.1]
        simp only [ha, hb, Option.map_some, Option.bind_some]

/-- A command is found under its key, just where its records are there. -/
theorem command?_eq_some {body : Body} {stmt : Inst} {command : Command} :
    body.command? stmt = some command ↔ body.IsCommand stmt command := by
  constructor
  · intro h
    rw [command?] at h
    cases hrecord : body.records[stmt.index]? with
    | none => rw [hrecord] at h; cases h
    | some record =>
        rw [hrecord] at h
        cases record with
        | save value dest =>
            obtain ⟨v, hv, rfl⟩ := Option.map_eq_some_iff.mp h
            obtain ⟨rfl, hvalue⟩ := value?_eq_some.mp hv
            exact ⟨hrecord, hvalue⟩
        | branch cond target =>
            obtain ⟨a, ha, rfl⟩ := Option.map_eq_some_iff.mp h
            obtain ⟨rfl, hload⟩ := access?_eq_some.mp ha
            exact ⟨hrecord, hload⟩
        | ret value =>
            cases value with
            | none => cases h; exact hrecord
            | some value =>
                obtain ⟨a, ha, rfl⟩ := Option.map_eq_some_iff.mp h
                obtain ⟨rfl, hload⟩ := access?_eq_some.mp ha
                exact ⟨hrecord, hload⟩
        | call target args isExternal saved => cases h; exact hrecord
        | use loc => cases h; exact hrecord
        | label place => cases h; exact hrecord
        | jump target => cases h; exact hrecord
        | exit code => cases h; exact hrecord
        | load | param | unary | binary => cases h
  · intro h
    cases command with
    | save value dest =>
        have hv : body.value? value.inst = some value := value?_eq_some.mpr ⟨rfl, h.2⟩
        rw [command?, h.1]
        simp only [hv, Option.map_some]
    | branch cond target =>
        have ha : body.access? cond.inst = some cond := access?_eq_some.mpr ⟨rfl, h.2⟩
        rw [command?, h.1]
        simp only [ha, Option.map_some]
    | ret value =>
        cases value with
        | none => rw [command?, show body.records[stmt.index]? = _ from h]
        | some value =>
            have ha : body.access? value.inst = some value := access?_eq_some.mpr ⟨rfl, h.2⟩
            rw [command?, h.1]
            simp only [ha, Option.map_some, Function.comp]
    | call target args isExternal saved =>
        rw [command?, show body.records[stmt.index]? = _ from h]
    | use loc => rw [command?, show body.records[stmt.index]? = _ from h]
    | label place => rw [command?, show body.records[stmt.index]? = _ from h]
    | jump target => rw [command?, show body.records[stmt.index]? = _ from h]
    | exit code => rw [command?, show body.records[stmt.index]? = _ from h]

/-! ## What a statement owns, reads and calls -/

section

variable {body : Body}

-- Reads and calls are found by going through the records of a tree.
attribute [local simp] bind Except.bind pure Except.pure Command.owned Command.reads
  Command.callInst? Value.insts Value.reads Value.callInst? Record.sources Record.isCall List.findM?

/-- A record that is there is found. -/
theorem record_eq {inst : Inst} {record : Record} (h : body.records[inst.index]? = some record) :
    body.record inst = .ok record := by
  rw [Body.record, h]

/-- A location that is there is found. -/
theorem location_eq {loc : Loc} {location : Location}
    (h : body.locations[loc.index]? = some location) : body.location loc = .ok location := by
  rw [Body.location, h]

/-- Whether a location that is there is a field. -/
theorem isGlobal_eq {loc : Loc} {location : Location}
    (h : body.locations[loc.index]? = some location) :
    body.isGlobal loc = .ok location.isGlobal := by
  rw [isGlobal, location_eq h]
  rfl

/-- Of a location it can be told whether it is a field. -/
theorem isGlobal_ok {loc : Loc} (h : loc.index < body.locations.size) :
    ∃ field, body.isGlobal loc = .ok field :=
  ⟨_, isGlobal_eq (Array.getElem?_eq_getElem h)⟩

/-- Whether a location that is there can be written. -/
theorem isVariable_eq {loc : Loc} {location : Location}
    (h : body.locations[loc.index]? = some location) :
    body.isVariable loc = .ok location.isWritable := by
  rw [isVariable, location_eq h]
  rfl

/-- The tree of a record without operands. -/
theorem treeWithin_leaf {inst : Inst} {record : Record}
    (h : body.records[inst.index]? = some record) (hleaf : record.operands = []) (depth : Nat) :
    body.treeWithin (depth + 1) inst = .ok [inst] := by
  rw [treeWithin, record_eq h]
  simp only [bind, Except.bind, hleaf, List.mapM_nil]
  rfl

/-- A record that is found is one of the body. -/
theorem lt_size {inst : Inst} {record : Record} (h : body.records[inst.index]? = some record) :
    inst.index < body.records.size := (Array.getElem?_eq_some_iff.mp h).1

/-- Records of different kinds have different keys. -/
theorem index_ne {a b : Inst} {r s : Record} (ha : body.records[a.index]? = some r)
    (hb : body.records[b.index]? = some s) (hne : r ≠ s) : a.index ≠ b.index := by
  intro h
  rw [h, hb] at ha
  exact hne (Option.some.inj ha).symm

/-- The tree of a value, at any sufficient depth. -/
theorem treeWithin_value {value : Value} (h : body.IsValue value) (depth : Nat) :
    body.treeWithin (depth + 2) value.inst = .ok value.insts := by
  cases value with
  | load src => exact treeWithin_leaf h rfl _
  | param inst index => exact treeWithin_leaf h rfl _
  | call inst target args isExternal saved => exact treeWithin_leaf h rfl _
  | unary inst op operand =>
      rw [treeWithin, Value.inst, record_eq h.1]
      simp only [bind, Except.bind, Record.operands, List.mapM_cons, List.mapM_nil,
        treeWithin_leaf h.2 rfl]
      rfl
  | binary inst op lhs rhs =>
      rw [treeWithin, Value.inst, record_eq h.1]
      simp only [bind, Except.bind, Record.operands, List.mapM_cons, List.mapM_nil,
        treeWithin_leaf h.2.1 rfl, treeWithin_leaf h.2.2 rfl]
      rfl

/-- The tree of a statement. -/
theorem valueTree_eq {stmt : Inst} {command : Command} (h : body.command? stmt = some command) :
    body.valueTree stmt = .ok (command.owned ++ [stmt]) := by
  have h := command?_eq_some.mp h
  rw [valueTree]
  cases command with
  | save value dest =>
      obtain ⟨depth, hdepth⟩ : ∃ depth, body.records.size = depth + 2 := by
        -- the statement and its value are two records, so the depth suffices for both
        have hstmt := lt_size h.1
        have hvalue : value.inst.index < body.records.size ∧
            stmt.index ≠ value.inst.index := by
          cases value with
          | load src => exact ⟨lt_size h.2, index_ne h.1 h.2 nofun⟩
          | param inst index => exact ⟨lt_size h.2, index_ne h.1 h.2 nofun⟩
          | call inst target args isExternal saved =>
              exact ⟨lt_size h.2, index_ne h.1 h.2 nofun⟩
          | unary inst op operand => exact ⟨lt_size h.2.1, index_ne h.1 h.2.1 nofun⟩
          | binary inst op lhs rhs => exact ⟨lt_size h.2.1, index_ne h.1 h.2.1 nofun⟩
        exact ⟨body.records.size - 2, by omega⟩
      rw [hdepth, treeWithin, record_eq h.1]
      simp only [bind, Except.bind, Record.operands, List.mapM_cons, List.mapM_nil,
        treeWithin_value h.2]
      simp only [pure, Except.pure, List.flatten_cons, List.flatten_nil, List.append_nil]
      rfl
  | branch cond target =>
      obtain ⟨depth, hdepth⟩ : ∃ depth, body.records.size = depth + 1 :=
        ⟨body.records.size - 1, by have := lt_size h.1; omega⟩
      rw [hdepth, treeWithin, record_eq h.1]
      simp only [bind, Except.bind, Record.operands, List.mapM_cons, List.mapM_nil,
        treeWithin_leaf h.2 rfl]
      rfl
  | ret value =>
      cases value with
      | none => exact treeWithin_leaf h rfl _
      | some value =>
          obtain ⟨depth, hdepth⟩ : ∃ depth, body.records.size = depth + 1 :=
            ⟨body.records.size - 1, by have := lt_size h.1; omega⟩
          rw [hdepth, treeWithin, record_eq h.1]
          simp only [bind, Except.bind, Record.operands, List.mapM_cons, List.mapM_nil,
            treeWithin_leaf h.2 rfl]
          rfl
  | call target args isExternal saved => exact treeWithin_leaf h rfl _
  | use loc => exact treeWithin_leaf h rfl _
  | label place => exact treeWithin_leaf h rfl _
  | jump target => exact treeWithin_leaf h rfl _
  | exit code => exact treeWithin_leaf h rfl _

/-- The reads of a statement. -/
theorem reads_eq {stmt : Inst} {command : Command} (h : body.command? stmt = some command) :
    body.reads stmt = .ok (command.reads stmt) := by
  rw [reads, valueTree_eq h]
  have h := command?_eq_some.mp h
  cases command with
  | save value dest =>
      cases value with
      | load src => simp [record_eq h.1, record_eq h.2]
      | param inst index => simp [record_eq h.1, record_eq h.2]
      | call inst target args isExternal saved => simp [record_eq h.1, record_eq h.2]
      | unary inst op operand => simp [record_eq h.1, record_eq h.2.1, record_eq h.2.2]
      | binary inst op lhs rhs =>
          simp [record_eq h.1, record_eq h.2.1, record_eq h.2.2.1, record_eq h.2.2.2]
  | branch cond target => simp [record_eq h.1, record_eq h.2]
  | ret value =>
      cases value with
      | none => simp [record_eq h]
      | some value => simp [record_eq h.1, record_eq h.2]
  | call | use | label | jump | exit => simp [record_eq h]

/-- The call of a statement. -/
theorem callIn?_eq {stmt : Inst} {command : Command} (h : body.command? stmt = some command) :
    body.callIn? stmt = .ok (command.callInst? stmt) := by
  rw [callIn?, valueTree_eq h]
  have h := command?_eq_some.mp h
  cases command with
  | save value dest =>
      cases value with
      | load src => simp [record_eq h.1, record_eq h.2]
      | param inst index => simp [record_eq h.1, record_eq h.2]
      | call inst target args isExternal saved => simp [record_eq h.2]
      | unary inst op operand => simp [record_eq h.1, record_eq h.2.1, record_eq h.2.2]
      | binary inst op lhs rhs =>
          simp [record_eq h.1, record_eq h.2.1, record_eq h.2.2.1, record_eq h.2.2.2]
  | branch cond target => simp [record_eq h.1, record_eq h.2]
  | ret value =>
      cases value with
      | none => simp [record_eq h]
      | some value => simp [record_eq h.1, record_eq h.2]
  | call | use | label | jump | exit => simp [record_eq h]

/-- A statement has a call where its command has one. -/
theorem hasCall_eq {stmt : Inst} {command : Command} (h : body.command? stmt = some command) :
    body.hasCall stmt = .ok (command.callInst? stmt).isSome := by
  rw [hasCall, callIn?_eq h]
  rfl

/-- A statement has the destination, the target and the place in its block
    that its command has. -/
theorem record_command {stmt : Inst} {command : Command}
    (h : body.command? stmt = some command) :
    ∃ record, body.records[stmt.index]? = some record ∧ record.dest? = command.dest? ∧
      record.target? = command.target? ∧ record.endsBlock = command.endsBlock ∧
      record.isTerminator = command.isTerminator := by
  have h := command?_eq_some.mp h
  cases command with
  | save value dest => exact ⟨_, h.1, rfl, rfl, rfl, rfl⟩
  | branch cond target => exact ⟨_, h.1, rfl, rfl, rfl, rfl⟩
  | ret value =>
      cases value with
      | none => exact ⟨_, h, rfl, rfl, rfl, rfl⟩
      | some value => exact ⟨_, h.1, rfl, rfl, rfl, rfl⟩
  | call | use | label | jump | exit => exact ⟨_, h, rfl, rfl, rfl, rfl⟩

/-- A read is made by a record that writes nothing. -/
theorem record_reads {stmt : Inst} {command : Command} (h : body.command? stmt = some command)
    {access : Access} (hread : access ∈ command.reads stmt) :
    ∃ record, body.records[access.inst.index]? = some record ∧ record.dest? = none := by
  have h := command?_eq_some.mp h
  have hargs : ∀ {inst : Inst} {args : List Loc}, access ∈ args.map (Access.mk inst) →
      access.inst = inst := by
    intro inst args hmem
    obtain ⟨arg, -, rfl⟩ := List.mem_map.mp hmem
    rfl
  cases command with
  | save value dest =>
      obtain ⟨-, h⟩ := h
      cases value with
      | load src =>
          obtain rfl := List.mem_singleton.mp hread
          exact ⟨_, h, rfl⟩
      | param inst index => cases hread
      | unary inst op operand =>
          obtain rfl := List.mem_singleton.mp hread
          exact ⟨_, h.2, rfl⟩
      | binary inst op lhs rhs =>
          rcases List.mem_cons.mp hread with rfl | hread
          · exact ⟨_, h.2.1, rfl⟩
          · obtain rfl := List.mem_singleton.mp hread
            exact ⟨_, h.2.2, rfl⟩
      | call inst target args isExternal saved => exact ⟨_, hargs hread ▸ h, rfl⟩
  | call target args isExternal saved => exact ⟨_, hargs hread ▸ h, rfl⟩
  | use loc =>
      obtain rfl := List.mem_singleton.mp hread
      exact ⟨_, h, rfl⟩
  | branch cond target =>
      obtain rfl := List.mem_singleton.mp hread
      exact ⟨_, h.2, rfl⟩
  | ret value =>
      cases value with
      | none => cases hread
      | some value =>
          obtain rfl := List.mem_singleton.mp hread
          exact ⟨_, h.2, rfl⟩
  | label | jump | exit => cases hread

end

/-! ## How a command runs -/

section

variable (setting : Setting) (body : Body)

/-- The value that a save stores. -/
def evaluateValue (store : Store) (calls : List CallEvent) : Value → Except Ending Reached
  | .load src =>
    match body.read setting store src.loc with
    | some word => .ok ⟨word, store, calls⟩
    | none => .error ⟨.stuck, store.globals, calls⟩
  | .param _ index => .ok ⟨setting.args index, store, calls⟩
  | .unary _ op operand =>
    match body.read setting store operand.loc with
    | some word => .ok ⟨op.apply word, store, calls⟩
    | none => .error ⟨.stuck, store.globals, calls⟩
  | .binary _ op lhs rhs =>
    match body.read setting store lhs.loc, body.read setting store rhs.loc with
    | some a, some b =>
      match setting.arithmetic.apply op a b with
      | some word => .ok ⟨word, store, calls⟩
      | none => .error ⟨.aborted .trap, store.globals, calls⟩
    | _, _ => .error ⟨.stuck, store.globals, calls⟩
  | .call _ target args _ _ => body.callOut setting store calls target args

/-- Runs a command; `config` is the point after it. -/
def perform (config : Config) : Command → Progress Config
  | .save value dest =>
    match body.evaluateValue setting config.store config.calls value with
    | .error ending => .ended ending
    | .ok reached =>
      match body.write setting reached.store dest reached.value with
      | some store => .going { config with store, calls := reached.calls }
      | none => .ended ⟨.stuck, reached.store.globals, reached.calls⟩
  | .call target args _ _ =>
    match body.callOut setting config.store config.calls target args with
    | .error ending => .ended ending
    | .ok reached => .going { config with store := reached.store, calls := reached.calls }
  | .use _ | .label _ => .going config
  | .jump target => body.goTo config target
  | .branch cond target =>
    match body.read setting config.store cond.loc with
    | some word => if word = 0 then body.goTo config target else .going config
    | none => .ended (config.stop .stuck)
  | .ret none => .ended (config.stop (.returned none))
  | .ret (some value) =>
    match body.read setting config.store value.loc with
    | some word => .ended (config.stop (.returned (some word)))
    | none => .ended (config.stop .stuck)
  | .exit code => .ended (config.stop (.aborted (.exit code)))

variable {setting body}

/-- An operand is read at its location. -/
theorem operand_eq {access : Access} {store : Store}
    (h : body.records[access.inst.index]? = some (.load access.loc)) :
    body.operand setting store access.inst = body.read setting store access.loc := by
  rw [operand, h]

/-- A record is evaluated as its value is. -/
theorem evaluateAt_eq {value : Value} {store : Store} {calls : List CallEvent}
    (h : body.IsValue value) :
    body.evaluateAt setting store calls value.inst =
      body.evaluateValue setting store calls value := by
  rw [evaluateAt]
  cases value with
  | load src =>
      rw [Value.inst, show body.records[src.inst.index]? = _ from h]
      simp only [evaluate, compute, evaluateValue]
      cases body.read setting store src.loc with
      | some word => rfl
      | none => rfl
  | param inst index =>
      rw [Value.inst, show body.records[inst.index]? = _ from h]
      rfl
  | call inst target args isExternal saved =>
      rw [Value.inst, show body.records[inst.index]? = _ from h]
      rfl
  | unary inst op operand =>
      rw [Value.inst, h.1]
      simp only [evaluate, compute, evaluateValue, operand_eq h.2]
      cases body.read setting store operand.loc with
      | some word => rfl
      | none => rfl
  | binary inst op lhs rhs =>
      rw [Value.inst, h.1]
      simp only [evaluate, compute, evaluateValue, operand_eq h.2.1, operand_eq h.2.2]
      cases body.read setting store lhs.loc with
      | none => rfl
      | some a =>
          cases body.read setting store rhs.loc with
          | none => rfl
          | some b =>
              dsimp only
              cases setting.arithmetic.apply op a b with
              | some word => rfl
              | none => rfl

/-- **STATEMENTS RUN AS COMMANDS**: one step of a run performs the command of
    the next statement. -/
theorem stepFrom_eq {config : Config} {stmt : Inst} {rest : List Inst} {command : Command}
    (hrest : config.rest = stmt :: rest) (h : body.command? stmt = some command) :
    body.stepFrom setting config = body.perform setting { config with rest } command := by
  have h := command?_eq_some.mp h
  cases command with
  | save value dest =>
      rw [stepFrom_cons hrest h.1, stepOver, evaluateAt_eq h.2]
      rfl
  | branch cond target =>
      rw [stepFrom_cons hrest h.1, stepOver, operand_eq h.2]
      rfl
  | ret value =>
      cases value with
      | none => rw [stepFrom_cons hrest h]; rfl
      | some value =>
          rw [stepFrom_cons hrest h.1, stepOver, operand_eq h.2]
          rfl
  | call target args isExternal saved => rw [stepFrom_cons hrest h]; rfl
  | use loc => rw [stepFrom_cons hrest h]; rfl
  | label place => rw [stepFrom_cons hrest h]; rfl
  | jump target => rw [stepFrom_cons hrest h]; rfl
  | exit code => rw [stepFrom_cons hrest h]; rfl

end

end Body

end DecafBackend
