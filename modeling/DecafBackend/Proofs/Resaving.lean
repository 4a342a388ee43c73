import DecafBackend.Allocation.Registers
import DecafBackend.Proofs.BodyEdits
import DecafBackend.Proofs.Liveness

/-! # What allocation changes in a body

    Allocation writes the registers that each call has to preserve into the call,
    and leaves everything else as it is: the same statements do the same, and
    control goes the same ways.

    * `Command.withSaved` — a command with other registers to preserve
    * `Body.Resaved` — a body with other registers to preserve
    * `Resaved.leads`, `Resaved.command_of` — it has the same points and commands
    * `Resaved.flowGraph` — it has the same flow graph
    * `Resaved.setSaved`, `Resaved.foldl` — writing the registers into calls one by one -/

namespace DecafBackend

/-- The registers that a record preserves. -/
def Record.saved : Record → List Register
  | call _ _ _ saved => saved
  | _ => []

/-- A record with other registers to preserve. -/
def Record.withSaved (saved : List Register) : Record → Record
  | call target args isExternal _ => call target args isExternal saved
  | record => record

/-- A value with other registers to preserve. -/
def Value.withSaved (saved : Inst → List Register) : Value → Value
  | call inst target args isExternal _ => call inst target args isExternal (saved inst)
  | value => value

/-- A command with other registers to preserve. -/
def Command.withSaved (saved : Inst → List Register) (stmt : Inst) : Command → Command
  | save value dest => save (value.withSaved saved) dest
  | call target args isExternal _ => call target args isExternal (saved stmt)
  | command => command

namespace Record

@[simp] theorem withSaved_saved (record : Record) : record.withSaved record.saved = record := by
  cases record <;> rfl

@[simp] theorem withSaved_withSaved (saved saved' : List Register) (record : Record) :
    (record.withSaved saved).withSaved saved' = record.withSaved saved' := by
  cases record <;> rfl

variable (saved : List Register) (record : Record)

@[simp] theorem operands_withSaved : (record.withSaved saved).operands = record.operands := by
  cases record <;> rfl

@[simp] theorem sources_withSaved : (record.withSaved saved).sources = record.sources := by
  cases record <;> rfl

@[simp] theorem dest?_withSaved : (record.withSaved saved).dest? = record.dest? := by
  cases record <;> rfl

@[simp] theorem isCall_withSaved : (record.withSaved saved).isCall = record.isCall := by
  cases record <;> rfl

end Record

namespace Command

variable (saved : Inst → List Register) (stmt : Inst) (command : Command)

@[simp] theorem reads_withSaved :
    (command.withSaved saved stmt).reads stmt = command.reads stmt := by
  cases command with
  | save value dest => cases value <;> rfl
  | call | use | label | jump | branch | ret | exit => rfl

@[simp] theorem dest?_withSaved : (command.withSaved saved stmt).dest? = command.dest? := by
  cases command <;> rfl

@[simp] theorem target?_withSaved : (command.withSaved saved stmt).target? = command.target? := by
  cases command <;> rfl

@[simp] theorem endsBlock_withSaved :
    (command.withSaved saved stmt).endsBlock = command.endsBlock := by
  cases command <;> rfl

@[simp] theorem isTerminator_withSaved :
    (command.withSaved saved stmt).isTerminator = command.isTerminator := by
  cases command <;> rfl

@[simp] theorem callInst?_withSaved :
    (command.withSaved saved stmt).callInst? stmt = command.callInst? stmt := by
  cases command with
  | save value dest => cases value <;> rfl
  | call | use | label | jump | branch | ret | exit => rfl

@[simp] theorem owned_withSaved : (command.withSaved saved stmt).owned = command.owned := by
  cases command with
  | save value dest => cases value <;> rfl
  | ret value => cases value <;> rfl
  | call | use | label | jump | branch | exit => rfl

end Command

namespace Body

/-- A body whose calls have other registers to preserve, and that may have other
    bindings. -/
structure Resaved (saved : Inst → List Register) (body after : Body) : Prop where
  records : ∀ inst : Inst, after.records[inst.index]? =
    body.records[inst.index]?.map (Record.withSaved (saved inst))
  rest : after = { body with records := after.records, bindings := after.bindings }

namespace Resaved

variable {saved : Inst → List Register} {body after : Body} (h : Resaved saved body after)
include h

theorem blocks : after.blocks = body.blocks := by rw [h.rest]

theorem labels : after.labels = body.labels := by rw [h.rest]

theorem locations : after.locations = body.locations := by rw [h.rest]

theorem stmtsOf (block : Block) : after.stmtsOf block = body.stmtsOf block :=
  Body.stmtsOf_congr h.blocks block

theorem stmts : after.stmts = body.stmts := by rw [Body.stmts, Body.stmts, h.blocks]

theorem tracks (loc : Loc) : after.tracks loc = body.tracks loc := by
  rw [Body.tracks, Body.tracks, h.locations]

theorem access? (inst : Inst) : after.access? inst = body.access? inst := by
  rw [Body.access?, Body.access?, h.records inst]
  cases body.records[inst.index]? with
  | none => rfl
  | some record => cases record <;> rfl

/-- Values are the same but for the registers to save. -/
theorem value? (inst : Inst) :
    after.value? inst = (body.value? inst).map (Value.withSaved saved) := by
  rw [Body.value?, Body.value?, h.records inst]
  cases body.records[inst.index]? with
  | none => rfl
  | some record =>
      cases record with
      | unary op operand =>
          simp only [Option.map_some, Record.withSaved, h.access?]
          cases body.access? operand <;> rfl
      | binary op lhs rhs =>
          simp only [Option.map_some, Record.withSaved, h.access?]
          cases body.access? lhs <;> cases body.access? rhs <;> rfl
      | load | param | call | save | use | label | jump | branch | ret | exit => rfl

/-- **THE SAME COMMANDS**, up to the registers that calls preserve. -/
theorem command? (stmt : Inst) :
    after.command? stmt = (body.command? stmt).map (Command.withSaved saved stmt) := by
  rw [Body.command?, Body.command?, h.records stmt]
  cases body.records[stmt.index]? with
  | none => rfl
  | some record =>
      cases record with
      | save value dest =>
          simp only [Option.map_some, Record.withSaved, h.value?]
          cases body.value? value <;> rfl
      | branch cond target =>
          simp only [Option.map_some, Record.withSaved, h.access?]
          cases body.access? cond <;> rfl
      | ret value =>
          cases value with
          | none => rfl
          | some value =>
              simp only [Option.map_some, Record.withSaved, h.access?]
              cases body.access? value <;> rfl
      | load | param | call | unary | binary | use | label | jump | exit => rfl

/-- Every command comes from one of the body as it was. -/
theorem command_of {stmt : Inst} {command : Command}
    (hcommand : after.command? stmt = some command) :
    ∃ old, body.command? stmt = some old ∧ command = old.withSaved saved stmt := by
  rw [h.command?] at hcommand
  obtain ⟨old, hold, rfl⟩ := Option.map_eq_some_iff.mp hcommand
  exact ⟨old, hold, rfl⟩

theorem startOf (block : Block) : after.startOf block = body.startOf block := by
  rw [Body.startOf, Body.startOf, h.stmtsOf]

/-- Control goes the same ways. -/
theorem leads {point next : Point} (hleads : after.Leads point next) : body.Leads point next := by
  cases hleads with
  | fall hcommand hfalls =>
      obtain ⟨old, hold, rfl⟩ := h.command_of hcommand
      exact .fall hold (by rwa [Command.isTerminator_withSaved] at hfalls)
  | jump hcommand hlabel hplaced =>
      obtain ⟨old, hold, rfl⟩ := h.command_of hcommand
      rw [h.startOf]
      exact .jump hold (by rwa [Command.target?_withSaved] at hlabel) (h.labels ▸ hplaced)
  | leave hnext =>
      rw [h.startOf]
      refine .leave ?_
      rw [Body.next?, ← h.blocks]
      exact hnext

/-- What does not depend on the registers to save is computed from the same records. -/
theorem record_bind {α : Type} {f : Record → Checked α} (inst : Inst)
    (hf : ∀ saved record, f (record.withSaved saved) = f record) :
    (after.record inst >>= f) = (body.record inst >>= f) := by
  rw [Body.record, Body.record, h.records inst]
  cases body.records[inst.index]? with
  | none => rfl
  | some record => exact hf (saved inst) record

theorem labelBlock (label : Label) : after.labelBlock label = body.labelBlock label := by
  rw [Body.labelBlock, Body.labelBlock, h.labels]

theorem blockKeys : after.blockKeys = body.blockKeys := by
  rw [Body.blockKeys, Body.blockKeys, h.blocks]

/-- Blocks lead to the same blocks. -/
theorem successors (block : Block) : after.successors block = body.successors block := by
  have hnext : after.next? block = body.next? block := by rw [Body.next?, Body.next?, h.blocks]
  rw [Body.successors, Body.successors, h.stmtsOf, hnext]
  cases (body.stmtsOf block).getLast? with
  | none => rfl
  | some last =>
      simp only [h.labelBlock]
      exact h.record_bind last fun saved record => by cases record <;> rfl

/-- **THE SAME FLOW GRAPH**: no edge depends on the registers that calls preserve. -/
theorem flowGraph : FlowGraph.ofBody after = FlowGraph.ofBody body := by
  have hsuccessors : after.successors = body.successors := funext h.successors
  rw [FlowGraph.ofBody, FlowGraph.ofBody, h.blockKeys, h.blocks, hsuccessors]

/-- Other registers to save keep a body well-formed. -/
theorem wellFormed (wf : WellFormed body) : WellFormed after := by
  refine wf.of_commands h.blocks h.locations ⟨0⟩ fun stmt hstmt command hcommand => ?_
  have hvalid := wf.valid hstmt hcommand
  -- reads, destination and target do not depend on the registers that calls preserve
  refine ⟨command.withSaved saved stmt, ?_, ⟨?_, ?_, ?_⟩, ?_, ?_, fun inst hinst => Or.inl ?_⟩
  · rw [h.command?, hcommand]
    rfl
  · rw [Command.reads_withSaved, h.locations]
    exact hvalid.reads
  · rw [Command.dest?_withSaved, h.locations]
    exact hvalid.dest
  · rw [Command.target?_withSaved, h.labels, h.blocks]
    exact hvalid.target
  · rw [Command.endsBlock_withSaved]
  · rw [Command.isTerminator_withSaved]
  · rwa [Command.owned_withSaved] at hinst

/-- Points of control are the same. -/
theorem at_of {block : Block} {rest : List Inst} (hat : after.At block rest) :
    body.At block rest := by
  obtain ⟨hlt, before, hsplit, hfalls⟩ := hat
  refine ⟨h.blocks ▸ hlt, before, h.stmtsOf block ▸ hsplit, fun stmt command hlast hcommand => ?_⟩
  have hafter : after.command? stmt = some (command.withSaved saved stmt) := by
    rw [h.command?, hcommand]
    rfl
  have hkept := hfalls stmt _ hlast hafter
  rwa [Command.isTerminator_withSaved] at hkept

/-- Reads happen at the same points. -/
theorem readsBy {access : Access} {point : Point} (hreads : after.ReadsBy access point) :
    body.ReadsBy access point := by
  obtain ⟨stmt, rest, command, hrest, hcommand, hmem⟩ := hreads
  obtain ⟨old, hold, rfl⟩ := h.command_of hcommand
  exact ⟨stmt, rest, old, hrest, hold, by rwa [Command.reads_withSaved] at hmem⟩

/-- Writes happen at the same points. -/
theorem writes {loc : Loc} {point : Point} (hwrites : body.Writes loc point) :
    after.Writes loc point := by
  obtain ⟨stmt, rest, command, hrest, hcommand, hdest⟩ := hwrites
  refine ⟨stmt, rest, command.withSaved saved stmt, hrest, ?_, ?_⟩
  · rw [h.command?, hcommand]
    rfl
  · rw [Command.dest?_withSaved, hdest]

/-- The same reads are live. -/
theorem live {access : Access} {point : Point} (hlive : after.Live access point) :
    body.Live access point := by
  obtain ⟨last, hspares, hreads⟩ := hlive
  refine ⟨last, ?_, h.readsBy hreads⟩
  clear hreads
  -- the same path, move by move
  induction hspares with
  | refl point => exact .refl point
  | step hleads hwrites _ ih =>
      exact .step (h.leads hleads) (fun hold => hwrites (h.writes hold)) ih

end Resaved

/-! ## Writing the registers into the calls -/

/-- The registers of one call are set. -/
theorem records_setSaved (body : Body) (call inst : Inst) (saved : List Register) :
    (body.setSaved call saved).records[inst.index]? = if inst = call then
      body.records[inst.index]?.map (Record.withSaved saved) else body.records[inst.index]? := by
  by_cases heq : inst = call
  · subst heq
    rw [if_pos rfl, setSaved]
    cases hrecord : body.records[inst.index]? with
    | none => exact hrecord
    | some record =>
        cases record with
        | call target args isExternal old =>
            show (body.records.setIfInBounds inst.index _)[inst.index]? = _
            rw [Array.getElem?_setIfInBounds_self_of_lt (Array.getElem?_eq_some_iff.mp hrecord).1]
            rfl
        | _ => exact hrecord
  · have hne : call.index ≠ inst.index := fun h => heq (congrArg Key.mk h.symm)
    rw [if_neg heq, setSaved]
    split
    · exact Array.getElem?_setIfInBounds_ne hne
    · rfl

/-- Nothing but records changes when registers are set. -/
theorem setSaved_rest (body : Body) (call : Inst) (saved : List Register) :
    body.setSaved call saved = { body with records := (body.setSaved call saved).records } := by
  rw [setSaved]
  split <;> rfl

/-- At first every call saves what it saved before. -/
theorem Resaved.start (body : Body) (bindings : Bindings) :
    Resaved (fun inst => (body.records[inst.index]?.map Record.saved).getD []) body
      { body with bindings } where
  records inst := by
    show body.records[inst.index]? = _
    cases body.records[inst.index]? with
    | none => rfl
    | some record => exact congrArg some record.withSaved_saved.symm
  rest := rfl

variable {α : Type} (registers : α → List Register)

/-- The registers that calls preserve after some changes, one by one. -/
def savedAfter (saved : Inst → List Register) (changes : List (Inst × α)) : Inst → List Register :=
  changes.foldl (fun saved change inst =>
    if inst = change.1 then registers change.2 else saved inst) saved

variable {registers}

/-- One more call gets its registers. -/
theorem Resaved.setSaved {saved : Inst → List Register} {body after : Body}
    (h : Resaved saved body after) (call : Inst) (new : List Register) :
    Resaved (fun inst => if inst = call then new else saved inst) body
      (after.setSaved call new) where
  records inst := by
    rw [records_setSaved, h.records inst]
    split
    · rw [Option.map_map]
      congr 1
      funext record
      exact Record.withSaved_withSaved _ _ _
    · rfl
  rest := by
    rw [setSaved_rest, h.rest]

/-- One call after the other gets its registers. -/
theorem Resaved.foldl {saved : Inst → List Register} {body after : Body}
    (h : Resaved saved body after) (changes : List (Inst × α)) :
    Resaved (savedAfter registers saved changes) body
      (changes.foldl (fun body change => body.setSaved change.1 (registers change.2)) after) := by
  induction changes generalizing saved after with
  | nil => exact h
  | cons change changes ih => exact ih (h.setSaved change.1 (registers change.2))

/-- Setting registers changes no binding. -/
theorem bindings_foldl (body : Body) (changes : List (Inst × α)) :
    (changes.foldl (fun body change => body.setSaved change.1 (registers change.2)) body).bindings =
      body.bindings := by
  induction changes generalizing body with
  | nil => rfl
  | cons change changes ih => rw [List.foldl_cons, ih, setSaved_rest]

/-- A call that is changed in one way only. -/
theorem savedAfter_eq {call : Inst} {value : α} {changes : List (Inst × α)}
    {saved : Inst → List Register} (hunique : ∀ other, (call, other) ∈ changes → other = value)
    (h : saved call = registers value ∨ (call, value) ∈ changes) :
    savedAfter registers saved changes call = registers value := by
  -- the last change of the call counts, and all its changes agree
  induction changes generalizing saved with
  | nil =>
      rcases h with h | h
      · exact h
      · cases h
  | cons change changes ih =>
      refine ih (fun other hother => hunique other (List.mem_cons_of_mem _ hother)) ?_
      by_cases heq : call = change.1
      · have hsame : change.2 = value := hunique change.2 (heq ▸ List.mem_cons_self)
        exact Or.inl ((if_pos heq).trans (congrArg registers hsame))
      · rcases h with h | hmem
        · exact Or.inl ((if_neg heq).trans h)
        · rcases List.mem_cons.mp hmem with rfl | hmem
          · exact absurd rfl heq
          · exact Or.inr hmem

end Body

end DecafBackend
