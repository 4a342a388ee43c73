import DecafBackend.Machine.Assembly
import DecafBackend.Proofs.Behaviour

/-! # Execution of machine code

    A function runs instruction by instruction on registers of 64 bits, which
    wrap around, on the words of the stack, and on the fields, which stand in
    the data section.  A callee finds its arguments where the calling
    convention puts them.  It may change every register that it need not
    preserve and the stack below the stack pointer; whatever it leaves there is
    a parameter.

    Instructions that are used as no processor uses them lead nowhere: a jump to
    a label that is not placed, a condition without a comparison in front of it,
    or a return that does not find the registers of the caller and the return
    address as they were at the entry.

    * `MachineState`, `Machine` — what changes during a run, and what does not
    * `shifted_injective`, `isBelow_shifted` — addresses at distances from one
      another
    * `Machine.effect` — single instructions
    * `Machine.execution` — runs
    * `Machine.through`, `run_through` — instructions one after another -/

namespace DecafBackend

/-! ## States -/

/-- The contents of a machine. -/
structure MachineState where
  /-- The registers. -/
  registers : Register → Word
  /-- The words of the stack, by address. -/
  stack : Word → Word
  /-- The fields. -/
  globals : Globals
  /-- The operands of the last comparison, unless other arithmetic came after
      it. -/
  compared : Option (Word × Word) := none
  /-- The calls so far, the last one first. -/
  calls : List CallEvent := []

namespace MachineState

/-- Writes a register. -/
def set (state : MachineState) (register : Register) (word : Word) : MachineState :=
  { state with
    registers := fun other => if other = register then word else state.registers other }

/-- Writes a word of the stack. -/
def put (state : MachineState) (address word : Word) : MachineState :=
  { state with stack := fun other => if other = address then word else state.stack other }

/-- Remembers what was compared last. -/
def flag (state : MachineState) (compared : Option (Word × Word)) : MachineState :=
  { state with compared }

/-- The end of a run. -/
def stop (state : MachineState) (outcome : Outcome) : Ending :=
  ⟨outcome, state.globals, state.calls⟩

section

variable (state : MachineState) (register : Register) (address word : Word)
  (compared : Option (Word × Word))

@[simp] theorem set_same : (state.set register word).registers register = word := if_pos rfl

/-- The other registers stay as they are. -/
theorem set_other {other : Register} (h : other ≠ register) :
    (state.set register word).registers other = state.registers other := if_neg h

/-- Writing what is there changes nothing. -/
theorem set_self : state.set register (state.registers register) = state := by
  have hsame : (fun other => if other = register then state.registers register
      else state.registers other) = state.registers := by
    funext other
    split
    · next heq => rw [heq]
    · rfl
  rw [set, hsame]

@[simp] theorem set_stack : (state.set register word).stack = state.stack := rfl

@[simp] theorem set_globals : (state.set register word).globals = state.globals := rfl

@[simp] theorem set_calls : (state.set register word).calls = state.calls := rfl

@[simp] theorem set_compared : (state.set register word).compared = state.compared := rfl

@[simp] theorem put_same : (state.put address word).stack address = word := if_pos rfl

/-- The other slots stay as they are. -/
theorem put_other {other : Word} (h : other ≠ address) :
    (state.put address word).stack other = state.stack other := if_neg h

@[simp] theorem put_registers : (state.put address word).registers = state.registers := rfl

@[simp] theorem put_globals : (state.put address word).globals = state.globals := rfl

@[simp] theorem put_calls : (state.put address word).calls = state.calls := rfl

@[simp] theorem put_compared : (state.put address word).compared = state.compared := rfl

@[simp] theorem flag_registers : (state.flag compared).registers = state.registers := rfl

@[simp] theorem flag_stack : (state.flag compared).stack = state.stack := rfl

@[simp] theorem flag_globals : (state.flag compared).globals = state.globals := rfl

@[simp] theorem flag_calls : (state.flag compared).calls = state.calls := rfl

@[simp] theorem flag_compared : (state.flag compared).compared = compared := rfl

end

end MachineState

/-- The address at a distance from another one. -/
def shifted (address : Word) (distance : Int) : Word := address + Int64.ofInt distance

/-- Whether an address is below another one: by half of all addresses at most. -/
def isBelow (address other : Word) : Bool := address - other < 0

theorem shifted_zero (address : Word) : shifted address 0 = address := Int64.add_zero address

/-- Shifts of an address add up. -/
theorem shifted_shifted (address : Word) (a b : Int) :
    shifted (shifted address a) b = shifted address (a + b) := by
  rw [shifted, shifted, shifted, Int64.ofInt_add, Int64.add_assoc]

/-- How far apart two addresses are. -/
theorem shifted_sub_shifted (address : Word) (a b : Int) :
    shifted address a - shifted address b = Int64.ofInt (a - b) := by
  rw [shifted, shifted, Int64.ofInt_sub]
  grind

/-- Addresses that are near to each other are different at different shifts. -/
theorem shifted_injective {address : Word} {a b : Int} (h : shifted address a = shifted address b)
    (hnear : -4611686018427387904 ≤ a - b ∧ a - b ≤ 4611686018427387904) : a = b := by
  have hzero : Int64.ofInt (a - b) = 0 := by
    rw [← shifted_sub_shifted address, h, Int64.sub_self]
  have hint := congrArg Int64.toInt hzero
  rw [Int64.toInt_ofInt_of_le (by omega) (by omega)] at hint
  have hzero' : Int64.toInt 0 = 0 := by decide
  omega

/-- Near to each other, the order of addresses is that of their shifts. -/
theorem isBelow_shifted {address : Word} {a b : Int}
    (hnear : -4611686018427387904 ≤ a - b ∧ a - b ≤ 4611686018427387904) :
    isBelow (shifted address a) (shifted address b) = decide (a < b) := by
  rw [isBelow, shifted_sub_shifted, decide_eq_decide, Int64.lt_iff_toInt_lt,
    Int64.toInt_ofInt_of_le (by omega) (by omega)]
  have hzero : Int64.toInt 0 = 0 := by decide
  omega

/-- Whether a condition holds of what was compared. -/
def Condition.holds (condition : Condition) (a b : Word) : Bool :=
  match condition with
  | e => a = b
  | ne => a ≠ b
  | l => a < b
  | le => a ≤ b
  | g => b < a
  | ge => b ≤ a

/-- The quotient and the remainder of a dividend of two words.  Without them
    there is a trap: the divisor is zero, or the quotient does not fit a word. -/
def divideWords (high low divisor : Word) : Option (Word × Word) :=
  let dividend := high.toInt * 18446744073709551616 + low.toUInt64.toNat
  let quotient := dividend.tdiv divisor.toInt
  if divisor = 0 ∨ quotient < Int64.minValue.toInt ∨ Int64.maxValue.toInt < quotient then none
  else some (Int64.ofInt quotient, Int64.ofInt (dividend.tmod divisor.toInt))

/-! ## Machines -/

/-- What a function does that is called. -/
inductive Callee
  /-- It takes some number of arguments. -/
  | takes (count : Nat)
  /-- It ends the process with the code that it is given. -/
  | exits

/-- What is fixed while a function runs. -/
structure Machine where
  /-- The code of the function. -/
  code : List Instruction
  /-- The field at a label of the data section. -/
  field : String → String
  /-- The addresses of labels. -/
  address : String → Word
  /-- What answers calls. -/
  environment : Environment
  /-- What the function with a name does, after some calls. -/
  callee : List CallEvent → String → Callee
  /-- What a callee leaves in the registers that it need not preserve. -/
  clobbered : List CallEvent → Register → Word
  /-- What a callee leaves below the stack pointer. -/
  scribbled : List CallEvent → Word → Word
  /-- The contents at the entry of the function. -/
  entry : MachineState

/-- What an instruction does. -/
inductive Effect
  /-- Control goes on with the next instruction. -/
  | next (state : MachineState)
  /-- Control goes to a label. -/
  | jump (target : String) (state : MachineState)
  /-- The run ends. -/
  | ended (ending : Ending)

/-- No call is forgotten. -/
def Effect.Keeps (calls : List CallEvent) : Effect → Prop
  | .next state => calls <:+ state.calls
  | .jump _ state => calls <:+ state.calls
  | .ended ending => calls <:+ ending.calls

namespace Machine

variable (machine : Machine)

/-- The contents of an operand. -/
def operand (state : MachineState) : Operand → Word
  | .reg register => state.registers register
  | .imm value => value
  | .frame offset => state.stack (shifted (state.registers .rbp) offset)
  | .data label => state.globals (machine.field label)

/-- Writes an operand, if it can be written. -/
def assign (state : MachineState) (word : Word) : Operand → Effect
  | .reg register => .next (state.set register word)
  | .imm _ => .ended (state.stop .stuck)
  | .frame offset => .next (state.put (shifted (state.registers .rbp) offset) word)
  | .data label =>
    .next { state with
      globals := fun other =>
        if other = machine.field label then word else state.globals other }

/-- Applies an operation to the contents of two operands. -/
def operate (state : MachineState) (op : AluOp) (dest src : Operand) : Effect :=
  let a := machine.operand state dest
  let b := machine.operand state src
  match op with
  | .add => machine.assign (state.flag none) (a + b) dest
  | .sub => machine.assign (state.flag none) (a - b) dest
  | .imul => machine.assign (state.flag none) (a * b) dest
  | .xor => machine.assign (state.flag none) (a ^^^ b) dest
  | .cmp => .next (state.flag (some (a, b)))
  | .test => .next (state.flag none)

/-- Pushes a word. -/
def pushed (state : MachineState) (word : Word) : MachineState :=
  let top := shifted (state.registers .rsp) (-8)
  (state.set .rsp top).put top word

/-- Pops a word into a register. -/
def popped (state : MachineState) (register : Register) : MachineState :=
  (state.set .rsp (shifted (state.registers .rsp) 8)).set register
    (state.stack (state.registers .rsp))

/-- The argument at a position as a callee finds it: the first ones are in
    registers, and the others on the stack. -/
def argument (state : MachineState) (position : Nat) : Word :=
  match Register.arguments[position]? with
  | some register => state.registers register
  | none =>
    state.stack (shifted (state.registers .rsp) (8 * (position - Register.arguments.length : Nat)))

/-- A call as the callee sees it. -/
def event (state : MachineState) (target : String) (count : Nat) : CallEvent :=
  ⟨target, (List.range count).map (argument state), state.globals⟩

/-- What a callee that comes back leaves. -/
def returned (state : MachineState) (calls : List CallEvent) (globals : Globals) (result : Word) :
    MachineState where
  registers register :=
    if register = .rax then result
    else if register.isCallerSaved then machine.clobbered calls register
    else state.registers register
  stack address :=
    if isBelow address (state.registers .rsp) then machine.scribbled calls address
    else state.stack address
  globals
  calls

/-- Calls a function. -/
def callOut (state : MachineState) (target : String) : Effect :=
  match machine.callee state.calls target with
  | .exits => .ended (state.stop (.aborted (.exit (state.registers .rdi).toInt32)))
  | .takes count =>
    let calls := event state target count :: state.calls
    let reply := machine.environment calls
    match reply.result with
    | .ok result => .next (machine.returned state calls reply.globals result)
    | .error abort => .ended ⟨.aborted abort, reply.globals, calls⟩

/-- Whether a return finds everything as the caller left it: the registers that
    have to be preserved, the stack pointer among them, and the return address. -/
def isRestored (state : MachineState) : Bool :=
  Register.all.all (fun register => !register.isCalleeSaved ||
    state.registers register = machine.entry.registers register) &&
  state.stack (state.registers .rsp) = machine.entry.stack (state.registers .rsp)

/-- What an instruction does. -/
def effect (state : MachineState) : Instruction → Effect
  | .label _ | .comment _ => .next state
  | .mov dest src => machine.assign state (machine.operand state src) dest
  | .lea dest symbol => .next (state.set dest (machine.address symbol))
  | .alu op dest src => machine.operate state op dest src
  | .neg register => .next ((state.flag none).set register (-state.registers register))
  | .cqo => .next (state.set .rdx (if state.registers .rax < 0 then -1 else 0))
  | .idiv register =>
    match divideWords (state.registers .rdx) (state.registers .rax) (state.registers register) with
    | some (quotient, remainder) =>
      .next (((state.flag none).set .rax quotient).set .rdx remainder)
    | none => .ended (state.stop (.aborted .trap))
  | .set condition register =>
    match state.compared with
    | some (a, b) => .next (state.set register (truth (condition.holds a b)))
    | none => .ended (state.stop .stuck)
  | .push operand => .next (pushed state (machine.operand state operand))
  | .pop register => .next (popped state register)
  | .jmp target => .jump target state
  | .jcc condition target =>
    match state.compared with
    | some (a, b) => if condition.holds a b then .jump target state else .next state
    | none => .ended (state.stop .stuck)
  | .call target => machine.callOut state target
  | .ret =>
    if machine.isRestored state then
      .ended (state.stop (.returned (some (state.registers .rax))))
    else .ended (state.stop .stuck)

/-! ## Runs -/

/-- Instructions from a label on. -/
def fromLabel (target : String) : List Instruction → Option (List Instruction)
  | [] => none
  | instruction :: rest =>
    if instruction = .label target then some (instruction :: rest) else fromLabel target rest

/-- A point of a run. -/
structure Point where
  /-- The instructions that are still to run. -/
  rest : List Instruction
  /-- The contents of the machine. -/
  state : MachineState

/-- Where an effect leads. -/
def proceed (rest : List Instruction) : Effect → Progress Point
  | .next state => .going ⟨rest, state⟩
  | .jump target state =>
    match fromLabel target machine.code with
    | some rest => .going ⟨rest, state⟩
    | none => .ended (state.stop .stuck)
  | .ended ending => .ended ending

/-- One step of a run. -/
def step (point : Point) : Progress Point :=
  match point.rest with
  | [] => .ended (point.state.stop .stuck)
  | instruction :: rest => machine.proceed rest (machine.effect point.state instruction)

/-- An assignment keeps the calls. -/
theorem keeps_assign (state : MachineState) (word : Word) (dest : Operand) :
    Effect.Keeps state.calls (machine.assign state word dest) := by
  cases dest <;> exact List.suffix_rfl

/-- An operation keeps the calls. -/
theorem keeps_operate (state : MachineState) (op : AluOp) (dest src : Operand) :
    Effect.Keeps state.calls (machine.operate state op dest src) := by
  cases op with
  | add | sub | imul | xor => exact keeps_assign machine (state.flag none) _ dest
  | cmp | test => exact List.suffix_rfl

/-- Every instruction keeps the calls, or adds one. -/
theorem keeps_effect (state : MachineState) (instruction : Instruction) :
    Effect.Keeps state.calls (machine.effect state instruction) := by
  -- calls alone add an event
  cases instruction with
  | mov dest src => exact keeps_assign machine state _ dest
  | alu op dest src => exact keeps_operate machine state op dest src
  | call target =>
      simp only [effect, callOut]
      split
      · exact List.suffix_rfl
      · split <;> exact List.suffix_cons _ _
  | jcc condition target =>
      simp only [effect]
      split
      · split <;> exact List.suffix_rfl
      · exact List.suffix_rfl
  | idiv register | set condition register | ret =>
      simp only [effect]
      split <;> exact List.suffix_rfl
  | label name | comment text | lea dest symbol | neg register | cqo | push operand
  | pop register | jmp target => exact List.suffix_rfl

/-- What an effect leads to keeps the calls. -/
theorem keeps_proceed {rest : List Instruction} {calls : List CallEvent} {effect : Effect}
    (h : Effect.Keeps calls effect) :
    match machine.proceed rest effect with
    | .going point => calls <:+ point.state.calls
    | .ended ending => calls <:+ ending.calls := by
  cases effect with
  | next state => exact h
  | ended ending => exact h
  | jump target state =>
      simp only [proceed]
      cases fromLabel target machine.code with
      | some rest => exact h
      | none => exact h

/-- Every step keeps the calls, or adds one. -/
theorem keeps_step (point : Point) :
    match machine.step point with
    | .going next => point.state.calls <:+ next.state.calls
    | .ended ending => point.state.calls <:+ ending.calls := by
  rw [step]
  cases point.rest with
  | nil => exact List.suffix_rfl
  | cons instruction rest =>
      exact keeps_proceed machine (keeps_effect machine point.state instruction)

/-- The runs of a function. -/
def execution : System Point where
  step := machine.step
  calls point := point.state.calls
  calls_going {point next} h := by
    have hkeeps := keeps_step machine point
    rw [h] at hkeeps
    exact hkeeps
  calls_ended {point ending} h := by
    have hkeeps := keeps_step machine point
    rw [h] at hkeeps
    exact hkeeps

/-- The behaviour of a function. -/
def behaviour : Behaviour := machine.execution.behaviour ⟨machine.code, machine.entry⟩

/-! ## Instructions one after another -/

/-- What instructions do one after another, up to the first one that does not
    go on with the next. -/
def through (state : MachineState) : List Instruction → Effect
  | [] => .next state
  | instruction :: rest =>
    match machine.effect state instruction with
    | .next state => through state rest
    | effect => effect

variable {machine}

/-- Through one instruction, and then the others. -/
theorem through_cons {state next : MachineState} {instruction : Instruction}
    (h : machine.effect state instruction = .next next) (rest : List Instruction) :
    machine.through state (instruction :: rest) = machine.through next rest := by
  rw [through, h]

/-- Through the instructions of two parts. -/
theorem through_append {state next : MachineState} {first : List Instruction}
    (h : machine.through state first = .next next) (second : List Instruction) :
    machine.through state (first ++ second) = machine.through next second := by
  -- by induction on the first part, whose instructions neither jump nor end
  induction first generalizing state with
  | nil =>
      cases h
      rfl
  | cons instruction rest ih =>
      rw [through] at h
      cases heffect : machine.effect state instruction with
      | next middle =>
          rw [heffect] at h
          rw [List.cons_append, through_cons heffect]
          exact ih h
      | jump target middle => rw [heffect] at h; cases h
      | ended ending => rw [heffect] at h; cases h

/-- An end in the first part is the end of both. -/
theorem through_append_ended {state : MachineState} {ending : Ending} {first : List Instruction}
    (h : machine.through state first = .ended ending) (second : List Instruction) :
    machine.through state (first ++ second) = .ended ending := by
  induction first generalizing state with
  | nil => cases h
  | cons instruction rest ih =>
      rw [List.cons_append, through]
      rw [through] at h
      cases heffect : machine.effect state instruction with
      | next middle =>
          rw [heffect] at h
          exact ih h
      | jump target middle => rw [heffect] at h; cases h
      | ended other => rw [heffect] at h; exact h

/-- A run goes through instructions that stand at its point. -/
theorem run_through (rest : List Instruction) {instructions : List Instruction}
    {state : MachineState} :
    ∀ effect, machine.through state instructions = effect →
      match effect with
      | .next next => machine.execution.run instructions.length ⟨instructions ++ rest, state⟩ =
          .going ⟨rest, next⟩
      | effect => ∃ n others, machine.execution.run (n + 1) ⟨instructions ++ rest, state⟩ =
          machine.proceed others effect := by
  -- by induction on the instructions, and then by how the others end
  induction instructions generalizing state with
  | nil =>
      rintro effect rfl
      rfl
  | cons instruction instructions ih =>
      rintro effect rfl
      have hstep : machine.execution.step ⟨(instruction :: instructions) ++ rest, state⟩ =
          machine.proceed (instructions ++ rest) (machine.effect state instruction) := rfl
      rw [through]
      cases heffect : machine.effect state instruction with
      | next next =>
          rw [heffect] at hstep
          have hrest := ih _ (@rfl _ (machine.through next instructions))
          dsimp only
          cases hthrough : machine.through next instructions with
          | next last =>
              rw [hthrough] at hrest
              exact (System.run_succ_going hstep _).trans hrest
          | jump target last =>
              rw [hthrough] at hrest
              obtain ⟨n, others, hn⟩ := hrest
              exact ⟨n + 1, others, (System.run_succ_going hstep _).trans hn⟩
          | ended ending =>
              rw [hthrough] at hrest
              obtain ⟨n, others, hn⟩ := hrest
              exact ⟨n + 1, others, (System.run_succ_going hstep _).trans hn⟩
      | jump target next =>
          refine ⟨0, instructions ++ rest, ?_⟩
          rw [System.run_one, hstep, heffect]
      | ended ending =>
          refine ⟨0, instructions ++ rest, ?_⟩
          rw [System.run_one, hstep, heffect]

end Machine

end DecafBackend
