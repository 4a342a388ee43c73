import DecafBackend.Proofs.Allocation
import DecafBackend.Proofs.EmittedCalls
import DecafBackend.Proofs.FrameLayout

/-! # Statements in machine code

    While a method runs, the machine has the words of the method where the
    accesses look for them, and everything that the caller relies on is kept in
    the frame.  The code of a statement keeps it so.

    * `Body.Ready` — what makes a body fit for emission
    * `Holds` — a state of the machine and the contents of the locations
    * `Holds.untouched`, `Holds.called`, `Holds.stored` — what keeps a state so
    * `Holds.supplies` — what a statement reads -/

namespace DecafBackend

/-- What makes a body fit for emission. -/
structure Body.Ready (body : Body) : Prop where
  wellFormed : WellFormed body
  keeps : body.KeepsValues
  /-- Only variables and temporaries are in registers. -/
  tracks : ∀ {access : Access} {register : Register},
    body.bindings.get? access = some register → body.tracks access.loc = true
  /-- The method preserves what it has to of the registers that it uses. -/
  recorded : ∀ {access : Access} {register : Register},
    body.bindings.get? access = some register → register.isCalleeSaved = true →
      register ∈ body.bindings.calleeSaved
  preserved : ∀ register ∈ body.bindings.calleeSaved,
    register.isAllocatable = true ∧ register.isCalleeSaved = true
  /-- Calls preserve registers that can be bound. -/
  saved : ∀ {stmt : Inst} {saved : List Register}, stmt ∈ body.stmts →
    body.CallsSaving stmt saved →
      saved.length ≤ 16 ∧ ∀ register ∈ saved, register.isAllocatable = true
  /-- A label that is placed starts its block. -/
  labelled : ∀ {label : Label} {block : Block}, body.labels[label.index]? = some (some block) →
    ∃ stmt rest, body.stmtsOf block = stmt :: rest ∧ body.command? stmt = some (.label label)
  /-- A label stands nowhere else. -/
  placed : ∀ {stmt : Inst} {label : Label}, stmt ∈ body.stmts →
    body.command? stmt = some (.label label) →
      ∃ block rest, body.labels[label.index]? = some (some block) ∧
        body.stmtsOf block = stmt :: rest
  /-- The positions of arguments are small. -/
  params : ∀ {stmt inst : Inst} {index : Nat} {dest : Loc}, stmt ∈ body.stmts →
    body.command? stmt = some (.save (.param inst index) dest) → index < 2147483648

namespace Machine

variable (machine : Machine)

/-- The frame pointer of the function: behind the saved one. -/
def framePointer : Word := shifted (machine.entry.registers .rsp) (-8)

/-- The incoming argument at a position: the first ones are in registers, and the
    others are on the stack behind the return address. -/
def incoming (position : Nat) : Word :=
  match Register.arguments[position]? with
  | some register => machine.entry.registers register
  | none => machine.entry.stack (shifted machine.framePointer (16 + 8 * (position - 6 : Nat)))

/-- The setting that a machine provides for the symbols of a program and what the
    emission of the program has collected. -/
def setting (symbols : SymbolPool) (session : Session) : Setting where
  field symbol := (symbols.text? symbol).getD ""
  routine symbol := (symbols.text? symbol).getD ""
  literal symbol := machine.address ((session.label? ((symbols.text? symbol).getD "")).getD "")
  environment := machine.environment
  args := machine.incoming

end Machine

/-- A symbol has the text that is found for it. -/
theorem SymbolPool.text_eq_ok {pool : SymbolPool} {symbol : Symbol} {text : String}
    (h : pool.text symbol = .ok text) : pool.text? symbol = some text := by
  rw [SymbolPool.text] at h
  split at h
  · next found hfound =>
      cases h
      exact hfound
  · cases h

namespace Emission

open MachineState (Untouched)

/-- The offset of the stack pointer between statements. -/
def baseOf (context : Context) (size : Int) : Int := -(size + 8 * context.calleeSaved.length)

/-- How the frame of a method lies on the stack. -/
structure Layout (context : Context) (size : Int) : Prop where
  ready : context.body.Ready
  laid : context.frame.Laid (Nat.min context.body.params.length Register.arguments.length)
  covers : context.frame.size ≤ size
  small : size ≤ 2147483647
  count : context.calleeSaved.length ≤ 16

namespace Layout

variable {context : Context} {size : Int} (layout : Layout context size)
include layout

/-- The base of the frame is not too low. -/
theorem base_low : -8589934592 ≤ baseOf context size := by
  have := layout.small
  have := layout.count
  rw [baseOf]
  omega

/-- The base is below all slots. -/
theorem base_high : baseOf context size ≤ -context.frame.size := by
  have := layout.covers
  rw [baseOf]
  omega

/-- Slots are within the frame. -/
theorem slot_atFrame {loc : Loc} {slot : Int} (h : context.frame.slot? loc = some slot) :
    atFrame (baseOf context size) slot := by
  have hslot := layout.laid.slots h
  have hbase := layout.base_high
  exact ⟨by omega, by omega⟩

/-- A method preserves no register that it uses for itself. -/
theorem not_mem {register : Register} (h : register.isAllocatable = false) :
    register ∉ context.calleeSaved := by
  intro hmem
  have hpreserved := layout.ready.preserved register (Std.ExtTreeSet.mem_toList.mp hmem)
  rw [h] at hpreserved
  cases hpreserved.1

end Layout

section

variable (context : Context) (session : Session) (machine : Machine) (size : Int)

/-- The offsets of the frame that no location uses. -/
def isFixed (offset : Int) : Prop :=
  (baseOf context size ≤ offset ∧ offset < -context.frame.size) ∨
    (-(8 * Nat.min context.body.params.length Register.arguments.length : Nat) ≤ offset ∧
      offset ≤ 1152921504606846976)

/-- Everything that the caller relies on is kept in the frame, and the incoming
    arguments too. -/
structure Framed (state : MachineState) : Prop where
  rbp : state.registers .rbp = machine.framePointer
  rsp : state.registers .rsp = shifted machine.framePointer (baseOf context size)
  link : state.stack machine.framePointer = machine.entry.registers .rbp
  above : ∀ {offset : Int}, 8 ≤ offset → offset ≤ 1152921504606846976 →
    state.stack (shifted machine.framePointer offset) =
      machine.entry.stack (shifted machine.framePointer offset)
  params : ∀ {i : Nat}, i < Nat.min context.body.params.length Register.arguments.length →
    state.stack (shifted machine.framePointer (-(8 * (i + 1) : Int))) = machine.incoming i
  kept : Stacked state machine.framePointer (baseOf context size)
    (context.calleeSaved.reverse.map machine.entry.registers)
  others : ∀ {register : Register}, register.isCalleeSaved = true →
    register ∉ context.calleeSaved → register ≠ .rsp → register ≠ .rbp →
      state.registers register = machine.entry.registers register

/-- A word is where an access looks for its location. -/
def Held (state : MachineState) (access : Access) (word : Word) : Prop :=
  match context.body.storage access with
  | .register register => state.registers register = word
  | .memory loc => ∀ slot, context.frame.slot? loc = some slot →
      state.stack (shifted machine.framePointer slot) = word

/-- The machine has the contents of the locations where the accesses that are
    still wanted look for them. -/
structure Holds (store : Store) (wanted : Access → Prop) (state : MachineState) : Prop where
  framed : Framed context machine size state
  globals : state.globals = store.globals
  values : ∀ {access : Access} {word : Word}, wanted access →
    context.body.tracks access.loc = true → store.locals access.loc = some word →
      Held context machine state access word

end

section

variable {context : Context} {session : Session} {machine : Machine} {size : Int}
  {state after : MachineState} {store : Store} {wanted : Access → Prop}

/-- What is kept in the frame depends on offsets that no location uses, and on
    registers that nothing is bound to. -/
theorem Framed.mono (h : Framed context machine size state) (layout : Layout context size)
    (hregisters : ∀ {register : Register}, register.isCalleeSaved = true →
      register ∉ context.calleeSaved → after.registers register = state.registers register)
    (hstack : ∀ {offset : Int}, isFixed context size offset →
      after.stack (shifted machine.framePointer offset) =
        state.stack (shifted machine.framePointer offset)) :
    Framed context machine size after := by
  have hsmall := layout.base_low
  have hbase := layout.base_high
  refine ⟨?_, ?_, ?_, ?_, ?_, ?_, ?_⟩
  · rw [hregisters rfl (layout.not_mem rfl), h.rbp]
  · rw [hregisters rfl (layout.not_mem rfl), h.rsp]
  · have hzero : after.stack (shifted machine.framePointer 0) = _ :=
      hstack (Or.inr ⟨by omega, by omega⟩)
    rw [shifted_zero] at hzero
    rw [hzero, h.link]
  · intro offset hlow hhigh
    rw [hstack (Or.inr ⟨by omega, hhigh⟩), h.above hlow hhigh]
  · intro i hi
    rw [hstack (Or.inr ⟨by omega, by omega⟩), h.params hi]
  · refine h.kept.congr fun other hlow hhigh => hstack (Or.inl ⟨hlow, ?_⟩)
    have hcovers := layout.covers
    rw [List.length_map, List.length_reverse] at hhigh
    rw [baseOf] at hhigh
    omega
  · intro register hsaved hmem hrsp hrbp
    rw [hregisters hsaved hmem, h.others hsaved hmem hrsp hrbp]

/-! ## What keeps a state -/

/-- The emitter's own registers are not saved by callees. -/
theorem Register.isCallerSaved_of_isOwn {register : Register} (h : register.isOwn = true) :
    register.isCalleeSaved = false := by
  cases register with
  | rax | rdx | r10 | r11 => rfl
  | rbx | rcx | rsi | rdi | rbp | rsp | r8 | r9 | r12 | r13 | r14 | r15 => cases h

/-- A word is held as long as its place is not changed. -/
theorem Held.mono {access : Access} {word : Word}
    (h : Held context machine state access word)
    (hregisters : ∀ {register : Register}, context.body.bindings.get? access = some register →
      after.registers register = state.registers register)
    (hslots : ∀ {slot : Int}, context.frame.slot? access.loc = some slot →
      after.stack (shifted machine.framePointer slot) =
        state.stack (shifted machine.framePointer slot)) :
    Held context machine after access word := by
  rw [Held, Body.storage] at h ⊢
  cases hbound : context.body.bindings.get? access with
  | some register =>
      rw [hbound] at h
      exact (hregisters hbound).trans h
  | none =>
      rw [hbound] at h
      intro slot hslot
      exact (hslots hslot).trans (h slot hslot)

/-- What holds what is wanted holds less than that. -/
theorem Holds.mono {wanted' : Access → Prop} (h : Holds context machine size store wanted state)
    (himp : ∀ {access : Access}, wanted' access → wanted access) :
    Holds context machine size store wanted' state :=
  ⟨h.framed, h.globals, fun hwanted => h.values (himp hwanted)⟩

/-- The emitter's own registers hold nothing that is wanted. -/
theorem Holds.untouched (h : Holds context machine size store wanted state)
    (layout : Layout context size) (huntouched : Untouched state after) :
    Holds context machine size store wanted after where
  framed := by
    refine h.framed.mono layout (fun {register} hsaved _ => huntouched.registers ?_) fun _ => ?_
    · cases hown : register.isOwn with
      | false => rfl
      | true => cases hsaved.symm.trans (Register.isCallerSaved_of_isOwn hown)
    · rw [huntouched.stack]
  globals := huntouched.globals.trans h.globals
  values hwanted htracks hword := by
    refine (h.values hwanted htracks hword).mono (fun hbound => ?_) fun _ => ?_
    · exact huntouched.registers (Register.not_isOwn (layout.ready.keeps.allocatable hbound))
    · rw [huntouched.stack]

/-- A call leaves what is wanted behind it, if it preserves the registers that
    callees may change. -/
theorem Holds.called {saved : List Register} {globals : Globals} {calls : List CallEvent}
    {result : Word} (h : Holds context machine size store wanted state)
    (layout : Layout context size)
    (hcalled : Called machine.framePointer (baseOf context size) saved state after globals calls
      result)
    (hsaved : ∀ {access : Access} {register : Register}, wanted access →
      context.body.tracks access.loc = true →
      context.body.bindings.get? access = some register → register.isCallerSaved = true →
        register ∈ saved) :
    Holds context machine size { store with globals } wanted after where
  framed := by
    have hbase := layout.base_high
    have hleast := layout.laid.least
    refine h.framed.mono layout (fun hsaved _ => hcalled.registers (Or.inr hsaved)) ?_
    intro offset hfixed
    refine hcalled.above ?_
    rcases hfixed with ⟨hlow, hhigh⟩ | ⟨hlow, hhigh⟩
    · exact ⟨hlow, by omega⟩
    · exact ⟨by omega, hhigh⟩
  globals := hcalled.globals
  values {access word} hwanted htracks hword := by
    refine (h.values hwanted htracks hword).mono (fun {register} hbound => ?_) ?_
    · refine hcalled.registers ?_
      cases hcaller : register.isCallerSaved with
      | true => exact Or.inl (hsaved hwanted htracks hbound hcaller)
      | false =>
          right
          rw [Register.isCalleeSaved, hcaller]
          rfl
    · intro slot hslot
      exact hcalled.above (layout.slot_atFrame hslot)

/-! ## Reads and writes -/

/-- The labels of the fields stand for the fields. -/
def Linked (session : Session) (machine : Machine) : Prop :=
  ∀ {name label : String}, session.global? name = some label → machine.field label = name

/-- The field of a symbol is its text. -/
theorem field_eq {symbols : SymbolPool} {symbol : Symbol} {name : String}
    (h : symbols.text symbol = .ok name) :
    (machine.setting symbols session).field symbol = name := by
  show (symbols.text? symbol).getD "" = name
  rw [SymbolPool.text_eq_ok h]
  rfl

/-- A tracked location is read from the variables. -/
theorem read_of_tracks {body : Body} {setting : Setting} {loc : Loc}
    (h : body.tracks loc = true) : body.read setting store loc = store.locals loc := by
  rw [Body.read]
  rw [Body.tracks] at h
  cases hlocation : body.locations[loc.index]? with
  | none => rw [hlocation] at h; cases h
  | some location =>
      rw [hlocation] at h
      cases location with
      | localVar name => rfl
      | temp => rfl
      | global | constant | literal => cases h

/-- **READS FIND THEIR WORDS**. -/
theorem Holds.supplies {access : Access} {word : Word}
    (h : Holds context machine size store wanted state) (layout : Layout context size)
    (hlinked : Linked session machine) (hwanted : wanted access)
    (hread : context.body.read (machine.setting context.symbols session) store access.loc =
      some word) : Supplies context session machine state access word where
  register {register} hbound := by
    -- what a register is bound to is tracked, so its word is held there
    have htracks := layout.ready.tracks hbound
    rw [read_of_tracks htracks] at hread
    have hheld := h.values hwanted htracks hread
    rw [Held, Body.storage, hbound] at hheld
    exact ⟨layout.ready.keeps.allocatable hbound, hheld⟩
  operand {operand} hunbound hplaces := by
    cases hplaces with
    | register hbound => cases hunbound.symm.trans hbound
    | slot _ htracks hslot =>
        rw [read_of_tracks htracks] at hread
        have hheld := h.values hwanted htracks hread
        rw [Held, Body.storage, hunbound] at hheld
        rw [Machine.operand, h.framed.rbp]
        exact hheld _ hslot
    | field _ hlocation hname hlabel =>
        rw [Body.read, hlocation] at hread
        have hword := Option.some.inj hread
        rw [field_eq hname] at hword
        rw [Machine.operand, hlinked hlabel, h.globals]
        exact hword
    | constant _ hlocation =>
        rw [Body.read, hlocation] at hread
        exact Option.some.inj hread
  literal {symbol text label} hlocation htext hlabel := by
    rw [Body.read, hlocation] at hread
    have hword := Option.some.inj hread
    have htext := SymbolPool.text_eq_ok htext
    have hliteral : (machine.setting context.symbols session).literal symbol =
        machine.address label := by
      show machine.address ((session.label? ((context.symbols.text? symbol).getD "")).getD "") = _
      rw [htext, Option.getD_some, hlabel]
      rfl
    exact hliteral.symm.trans hword

/-- Everything that is wanted behind a save, in terms of what is wanted in front of
    the store: the location that is written is in its new place, and all others
    are in other places. -/
structure Redirects (body : Body) (stmt : Inst) (dest : Loc) (before behind : Access → Prop) :
    Prop where
  same : ∀ {access : Access}, behind access → access.loc = dest → body.tracks dest = true →
    body.storage ⟨stmt, dest⟩ = body.storage access
  apart : ∀ {access : Access}, behind access → body.tracks access.loc = true → access.loc ≠ dest →
    before access ∧ body.storage ⟨stmt, dest⟩ ≠ body.storage access

/-- A word that is stored into the register of an access. -/
theorem Holds.storedRegister {stmt : Inst} {dest : Loc} {behind : Access → Prop}
    {register : Register} {word : Word} (h : Holds context machine size store wanted state)
    (layout : Layout context size) (hredirects : Redirects context.body stmt dest wanted behind)
    (hbound : context.body.bindings.get? ⟨stmt, dest⟩ = some register) :
    Holds context machine size (store.setLocal dest word) behind (state.set register word) where
  framed := by
    refine h.framed.mono layout (fun {other} hsaved hmem => ?_) fun _ => rfl
    refine MachineState.set_other _ _ _ ?_
    rintro rfl
    exact hmem (Std.ExtTreeSet.mem_toList.mpr (layout.ready.recorded hbound hsaved))
  globals := h.globals
  values {access other} hbehind htracks hword := by
    have hstorage : context.body.storage ⟨stmt, dest⟩ = .register register := by
      rw [Body.storage, hbound]
    by_cases hloc : access.loc = dest
    · rw [hloc, Store.setLocal_locals_same] at hword
      cases hword
      rw [Held, ← hredirects.same hbehind hloc (hloc ▸ htracks), hstorage]
      exact MachineState.set_same _ _ _
    · rw [Store.setLocal_locals_other hloc] at hword
      obtain ⟨hwanted, hapart⟩ := hredirects.apart hbehind htracks hloc
      refine (h.values hwanted htracks hword).mono (fun {bound} hbound' => ?_) fun _ => rfl
      refine MachineState.set_other _ _ _ ?_
      rintro rfl
      rw [hstorage, Body.storage, hbound'] at hapart
      exact hapart rfl

/-- A word that is stored into the slot of a location. -/
theorem Holds.storedSlot {stmt : Inst} {dest : Loc} {behind : Access → Prop} {slot : Int}
    {word : Word} (h : Holds context machine size store wanted state)
    (layout : Layout context size) (hredirects : Redirects context.body stmt dest wanted behind)
    (hunbound : context.body.bindings.get? ⟨stmt, dest⟩ = none)
    (hslot : context.frame.slot? dest = some slot) :
    Holds context machine size (store.setLocal dest word) behind
      (state.put (shifted machine.framePointer slot) word) := by
  have hbase := layout.base_low
  have hhigh := layout.base_high
  have hslots := layout.laid.slots hslot
  -- other places of the frame are at other addresses
  have hother : ∀ {offset : Int}, -8589934592 ≤ offset → offset ≤ 1152921504606846976 →
      offset ≠ slot →
      (state.put (shifted machine.framePointer slot) word).stack
        (shifted machine.framePointer offset) =
          state.stack (shifted machine.framePointer offset) := by
    intro offset hlow hhigh hne
    refine MachineState.put_other _ _ _ fun heq => hne (shifted_injective heq ?_)
    omega
  refine ⟨h.framed.mono layout (fun _ _ => rfl) ?_, h.globals, ?_⟩
  · intro offset hfixed
    rcases hfixed with ⟨hfrom, hto⟩ | ⟨hfrom, hto⟩
    · exact hother (by omega) (by omega) (by omega)
    · exact hother (by omega) hto (by omega)
  · intro access other hbehind htracks hword
    -- a location stored to is read from its slot, and all others have slots of their own
    have hstorage : context.body.storage ⟨stmt, dest⟩ = .memory dest := by
      rw [Body.storage, hunbound]
    by_cases hloc : access.loc = dest
    · rw [hloc, Store.setLocal_locals_same] at hword
      cases hword
      rw [Held, ← hredirects.same hbehind hloc (hloc ▸ htracks), hstorage]
      intro found hfound
      cases hslot.symm.trans hfound
      exact MachineState.put_same _ _ _
    · rw [Store.setLocal_locals_other hloc] at hword
      obtain ⟨hwanted, -⟩ := hredirects.apart hbehind htracks hloc
      refine (h.values hwanted htracks hword).mono (fun _ => rfl) fun {found} hfound => ?_
      have hfoundSlots := layout.laid.slots hfound
      refine hother (by omega) (by omega) ?_
      rintro rfl
      exact hloc (layout.laid.apart hfound hslot)

/-- A word that is stored into a field. -/
theorem Holds.storedField {stmt : Inst} {dest : Loc} {behind : Access → Prop} {name : String}
    {word : Word} (h : Holds context machine size store wanted state)
    (layout : Layout context size) (hredirects : Redirects context.body stmt dest wanted behind)
    (hdest : context.body.tracks dest = false) :
    Holds context machine size (store.setGlobal name word) behind
      { state with
        globals := fun other => if other = name then word else state.globals other } where
  framed := h.framed.mono layout (fun _ _ => rfl) fun _ => rfl
  globals := by
    show (fun other => if other = name then word else state.globals other) =
      fun other => if other = name then word else store.globals other
    rw [h.globals]
  values {access other} hbehind htracks hword := by
    have hloc : access.loc ≠ dest := by
      rintro rfl
      cases hdest.symm.trans htracks
    exact (h.values (hredirects.apart hbehind htracks hloc).1 htracks hword).mono (fun _ => rfl)
      fun _ => rfl

/-- A store that is assigned is done. -/
theorem through_storeCode {operand : Operand} {register : Register} {next : MachineState}
    (h : machine.assign state (state.registers register) operand = .next next) :
    machine.through state (storeCode operand register) = .next next := by
  rw [storeCode]
  split
  · have heffect : machine.effect state (.mov operand (.reg register)) = .next next := h
    exact Machine.through_cons heffect []
  · next heq =>
      obtain rfl : operand = .reg register := Decidable.not_not.mp heq
      rw [Machine.assign, MachineState.set_self] at h
      exact h

/-- **WRITES GO WHERE THEY ARE READ**. -/
theorem Holds.stored {stmt : Inst} {dest : Loc} {behind : Access → Prop} {operand : Operand}
    {register : Register} {word : Word} {store' : Store}
    (h : Holds context machine size store wanted state) (layout : Layout context size)
    (hlinked : Linked session machine)
    (hredirects : Redirects context.body stmt dest wanted behind)
    (hplaces : Places context session ⟨stmt, dest⟩ operand)
    (hword : state.registers register = word)
    (hwrite : context.body.write (machine.setting context.symbols session) store dest word =
      some store') :
    ∃ after, machine.through state (storeCode operand register) = .next after ∧
      Holds context machine size store' behind after ∧ after.calls = state.calls := by
  have hlocal : context.body.tracks dest = true → store' = store.setLocal dest word := by
    intro htracks
    rw [Body.tracks] at htracks
    obtain ⟨location, hlocation, hwrite⟩ := Option.bind_eq_some_iff.mp hwrite
    rw [hlocation] at htracks
    cases location with
    | localVar name => exact (Option.some.inj hwrite).symm
    | temp => exact (Option.some.inj hwrite).symm
    | global | constant | literal => cases htracks
  subst hword
  -- a register, a slot or a field; nothing is written to a constant
  cases hplaces with
  | register hbound =>
      rw [hlocal (layout.ready.tracks hbound)]
      exact ⟨_, through_storeCode rfl, h.storedRegister layout hredirects hbound, rfl⟩
  | slot hunbound htracks hslot =>
      rw [hlocal htracks]
      refine ⟨_, through_storeCode rfl, ?_, rfl⟩
      rw [h.framed.rbp]
      exact h.storedSlot layout hredirects hunbound hslot
  | field _ hlocation hname hlabel =>
      rw [Body.write, hlocation] at hwrite
      obtain rfl := Option.some.inj hwrite
      have hdest : context.body.tracks dest = false := by
        rw [Body.tracks, hlocation]
        rfl
      refine ⟨_, through_storeCode rfl, ?_, rfl⟩
      rw [field_eq hname, hlinked hlabel]
      exact h.storedField layout hredirects hdest
  | constant _ hlocation =>
      rw [Body.write, hlocation] at hwrite
      cases hwrite

/-! ## Values and calls -/

/-- An incoming argument is found where the frame says. -/
theorem Holds.incoming {index : Nat} {offset : Int}
    (h : Holds context machine size store wanted state) (layout : Layout context size)
    (hindex : index < 2147483648) (hparam : context.frame.param? index = .ok (some offset)) :
    state.stack (shifted machine.framePointer offset) = machine.incoming index := by
  by_cases hlt : index < Nat.min context.body.params.length Register.arguments.length
  · rw [layout.laid.param?_register hlt] at hparam
    cases hparam
    exact h.framed.params hlt
  · obtain ⟨hsix, rfl⟩ := layout.laid.param?_stack (Nat.le_of_not_lt hlt) hindex hparam
    have hnone : Register.arguments[index]? = none := List.getElem?_eq_none hsix
    rw [h.framed.above (by omega) (by omega), Machine.incoming, hnone]

/-- What is needed of a call: the callee takes the arguments that it is given. -/
def Takes (machine : Machine) (calls : List CallEvent) (event : CallEvent) : Prop :=
  machine.callee calls event.target = .takes event.args.length ∧
    event.args.length < 288230376151711744

/-- Arguments that are read are supplied one by one. -/
theorem forall₂_of_mapM {read : Loc → Option Word} {supplied : Loc → Word → Prop} {args : List Loc}
    {words : List Word} (h : args.mapM read = some words)
    (hall : ∀ arg ∈ args, ∀ word, read arg = some word → supplied arg word) :
    List.Forall₂ supplied args words := by
  induction args generalizing words with
  | nil =>
      cases h
      exact .nil
  | cons arg args ih =>
      rw [List.mapM_cons] at h
      obtain ⟨word, hword, h⟩ := Option.bind_eq_some_iff.mp h
      obtain ⟨rest, hrest, h⟩ := Option.bind_eq_some_iff.mp h
      cases h
      exact .cons (hall arg List.mem_cons_self word hword)
        (ih hrest fun other hother => hall other (List.mem_cons_of_mem _ hother))

/-- **CALLS COME BACK** to a state that has everything that is wanted behind
    them, or end as they end. -/
theorem CallCode.holds {inst : Inst} {target : Symbol} {args : List Loc} {isExternal : Bool}
    {saved : List Register} {code : List Instruction} {words : List Word}
    {behind : Access → Prop}
    (hcode : CallCode context session inst target args isExternal saved code)
    (h : Holds context machine size store wanted state) (layout : Layout context size)
    (hlinked : Linked session machine) (hreads : ∀ arg ∈ args, wanted ⟨inst, arg⟩)
    (hbehind : ∀ {access : Access}, behind access → wanted access)
    (hcount : saved.length ≤ 16 ∧ ∀ register ∈ saved, register.isAllocatable = true)
    (hsaved : ∀ {access : Access} {register : Register}, behind access →
      context.body.tracks access.loc = true →
      context.body.bindings.get? access = some register → register.isCallerSaved = true →
        register ∈ saved)
    (hwords : args.mapM (context.body.read (machine.setting context.symbols session) store) =
      some words)
    (htakes : Takes machine state.calls
      ⟨(machine.setting context.symbols session).routine target, words, store.globals⟩) :
    match Body.callWith (machine.setting context.symbols session) store state.calls target
      words with
    | .ok reached => ∃ after, machine.through state code = .next after ∧
        after.registers .rax = reached.value ∧
        Holds context machine size reached.store behind after ∧ after.calls = reached.calls
    | .error ending => machine.through state code = .ended ending := by
  obtain ⟨name, hname⟩ : ∃ name, context.symbols.text target = .ok name := by
    obtain ⟨hname, -, -⟩ := hcode
    exact ⟨_, hname⟩
  have hroutine : (machine.setting context.symbols session).routine target = name :=
    @field_eq session machine _ _ _ hname
  rw [hroutine] at htakes
  have hsupplied : List.Forall₂ (fun arg word =>
      Supplies context session machine state ⟨inst, arg⟩ word) args words :=
    forall₂_of_mapM hwords fun arg harg _ hword =>
      h.supplies layout hlinked (hreads arg harg) hword
  have hhigh := layout.base_high
  -- the frame that is held is one that calls can be made from
  have hcallable : Callable context session machine state machine.framePointer
      (baseOf context size) inst args saved words :=
    ⟨h.framed.rbp, h.framed.rsp, layout.slot_atFrame, hsupplied, hcount.2, hcount.1,
      hsupplied.length_eq ▸ htakes.2, layout.base_low, by omega⟩
  have hthrough := hcode.through hcallable hname htakes.1
  simp only [Body.callWith, hroutine]
  rw [← h.globals]
  have henvironment : (machine.setting context.symbols session).environment =
      machine.environment := rfl
  rw [henvironment]
  cases hreply : (machine.environment (⟨name, words, state.globals⟩ :: state.calls)).result with
  | error abort =>
      rw [hreply] at hthrough
      exact hthrough
  | ok result =>
      rw [hreply] at hthrough
      obtain ⟨after, hafter, hcalled⟩ := hthrough
      exact ⟨after, hafter, hcalled.result, (h.mono hbehind).called layout hcalled hsaved,
        hcalled.calls⟩

/-- The calls that were made when a value is computed, or could not be. -/
def callsBehind : Except Ending Body.Reached → List CallEvent
  | .ok reached => reached.calls
  | .error ending => ending.calls

/-- What the code of a value has to come to. -/
def ValueMatched (context : Context) (machine : Machine) (size : Int) (behind : Access → Prop)
    (register : Register) (effect : Effect) : Except Ending Body.Reached → Prop
  | .ok reached => ∃ after, effect = .next after ∧ after.registers register = reached.value ∧
      Holds context machine size reached.store behind after ∧ after.calls = reached.calls
  | .error ending => ending.outcome ≠ .stuck → effect = .ended ending

/-- A value that changes nothing that is wanted is matched. -/
theorem Holds.valueMatched {behind : Access → Prop} {register : Register} {code : List Instruction}
    {word : Word} (h : Holds context machine size store wanted state)
    (layout : Layout context size) (hbehind : ∀ {access : Access}, behind access → wanted access)
    (hthrough : machine.through state code = .next after) (hword : after.registers register = word)
    (huntouched : Untouched state after) :
    ValueMatched context machine size behind register (machine.through state code)
      (.ok ⟨word, store, state.calls⟩) :=
  ⟨after, hthrough, hword, (h.mono hbehind).untouched layout huntouched, huntouched.calls⟩

/-- A run that is stuck is not to be matched. -/
theorem valueMatched_stuck {behind : Access → Prop} {register : Register} {effect : Effect}
    {ending : Ending} (h : ending.outcome = .stuck) :
    ValueMatched context machine size behind register effect (.error ending) :=
  fun hstuck => absurd h hstuck

/-- A call that is made stands behind the ones before, whatever it comes back with. -/
theorem callsBehind_callWith (setting : Setting) (store : Store) (calls : List CallEvent)
    (target : Symbol) (words : List Word) :
    callsBehind (Body.callWith setting store calls target words) =
      ⟨setting.routine target, words, store.globals⟩ :: calls := by
  rw [Body.callWith]
  cases (setting.environment _).result with
  | ok result => rfl
  | error abort => rfl

/-- An operator comes to its word, or traps. -/
theorem Holds.operatorMatched {behind : Access → Prop} {op : BinaryOp} {lhs rhs : Access}
    {left right : Register} {pool pool' : ScratchPool} {code code' : List Instruction} {a b : Word}
    (h : Holds context machine size store wanted state) (layout : Layout context size)
    (hbehind : ∀ {access : Access}, behind access → wanted access)
    (hleft : Reads context session lhs {} left pool code)
    (hright : Reads context session rhs pool right pool' code')
    (ha : Supplies context session machine state lhs a)
    (hb : Supplies context session machine state rhs b) :
    ValueMatched context machine size behind .r10
      (machine.through state (code ++ (code' ++ binaryCode op left right)))
      (match op.apply a b with
        | some word => .ok ⟨word, store, state.calls⟩
        | none => .error ⟨.aborted .trap, store.globals, state.calls⟩) := by
  obtain ⟨middle, hfirst, hleftWord, hrightWord, huntouched⟩ := hleft.through_both hright ha hb
  have hsecond := @through_binaryCode machine middle op left right a b hleftWord hrightWord
    (hright.not_divides hb)
  rw [← List.append_assoc]
  -- the machine traps just where the operator has no word
  cases hresult : op.apply a b with
  | some word =>
      rw [hresult] at hsecond
      obtain ⟨after, hsecond, hvalue, huntouched'⟩ := hsecond
      exact h.valueMatched layout hbehind ((Machine.through_append hfirst _).trans hsecond) hvalue
        (huntouched.trans huntouched')
  | none =>
      rw [hresult] at hsecond
      intro _
      rw [Machine.through_append hfirst, hsecond, huntouched.stop, MachineState.stop, h.globals]

/-- What is needed of a value besides the words that it reads. -/
structure Computable (context : Context) (machine : Machine) (behind : Access → Prop)
    (value : Value) : Prop where
  param : ∀ {inst : Inst} {index : Nat}, value = .param inst index → index < 2147483648
  count : ∀ {inst : Inst} {target : Symbol} {args : List Loc} {isExternal : Bool}
    {saved : List Register}, value = .call inst target args isExternal saved →
      saved.length ≤ 16 ∧ ∀ register ∈ saved, register.isAllocatable = true
  saved : ∀ {inst : Inst} {target : Symbol} {args : List Loc} {isExternal : Bool}
    {saved : List Register} {access : Access} {register : Register},
    value = .call inst target args isExternal saved → behind access →
      context.body.tracks access.loc = true →
      context.body.bindings.get? access = some register → register.isCallerSaved = true →
        register ∈ saved

/-- **VALUES ARE COMPUTED**, or their computation ends as it should. -/
theorem ValueCode.holds {value : Value} {register : Register} {code : List Instruction}
    {behind : Access → Prop} (hcode : ValueCode context session value register code)
    (h : Holds context machine size store wanted state) (layout : Layout context size)
    (hlinked : Linked session machine) (hreads : ∀ access ∈ value.reads, wanted access)
    (hbehind : ∀ {access : Access}, behind access → wanted access)
    (hcomputable : Computable context machine behind value)
    (htakes : ∀ {event : CallEvent},
      event :: state.calls = callsBehind (context.body.evaluateValue
        (machine.setting context.symbols session) store state.calls value) →
      Takes machine state.calls event) :
    ValueMatched context machine size behind register (machine.through state code)
      (context.body.evaluateValue (machine.setting context.symbols session) store state.calls
        value) := by
  cases hcode with
  | @load access register pool code hread =>
      rw [Body.evaluateValue]
      cases hword : context.body.read (machine.setting context.symbols session) store
          access.loc with
      | none => exact valueMatched_stuck rfl
      | some word =>
          obtain ⟨after, hthrough, hvalue, huntouched, -⟩ :=
            hread.through (h.supplies layout hlinked (hreads access List.mem_cons_self) hword)
          exact h.valueMatched layout hbehind hthrough hvalue huntouched
  | @param inst index offset hparam =>
      have hincoming := h.incoming layout (hcomputable.param rfl) hparam
      rw [← h.framed.rbp] at hincoming
      exact h.valueMatched layout hbehind rfl ((MachineState.set_same _ _ _).trans hincoming)
        ((Untouched.refl state).set rfl _)
  | @unary inst op operand source pool code hread =>
      rw [Body.evaluateValue]
      cases hword : context.body.read (machine.setting context.symbols session) store
          operand.loc with
      | none => exact valueMatched_stuck rfl
      | some word =>
          obtain ⟨middle, hfirst, hoperand, huntouched, -⟩ :=
            hread.through (h.supplies layout hlinked (hreads operand List.mem_cons_self) hword)
          obtain ⟨after, hsecond, hvalue, huntouched'⟩ :=
            @through_unaryCode machine middle op source word hoperand
          exact h.valueMatched layout hbehind ((Machine.through_append hfirst _).trans hsecond)
            hvalue (huntouched.trans huntouched')
  | @binary inst op lhs rhs left right pool pool' code code' hleft hright =>
      rw [Body.evaluateValue]
      cases hwordA : context.body.read (machine.setting context.symbols session) store
          lhs.loc with
      | none => exact valueMatched_stuck rfl
      | some a =>
          cases hwordB : context.body.read (machine.setting context.symbols session) store
              rhs.loc with
          | none => exact valueMatched_stuck rfl
          | some b =>
              exact h.operatorMatched layout hbehind hleft hright
                (h.supplies layout hlinked (hreads lhs List.mem_cons_self) hwordA)
                (h.supplies layout hlinked (hreads rhs (List.mem_cons_of_mem _ List.mem_cons_self))
                  hwordB)
  | @call inst target args isExternal saved code hcall =>
      rw [Body.evaluateValue, Body.callOut] at htakes ⊢
      cases hwords : args.mapM (context.body.read (machine.setting context.symbols session)
          store) with
      | none => exact valueMatched_stuck rfl
      | some words =>
          rw [hwords] at htakes
          have hthrough := hcall.holds h layout hlinked
            (fun arg harg => hreads _ (List.mem_map.mpr ⟨arg, harg, rfl⟩)) hbehind
            (hcomputable.count rfl) (hcomputable.saved rfl) hwords
            (htakes (callsBehind_callWith _ _ _ _ _).symm)
          dsimp only
          cases hresult : Body.callWith (machine.setting context.symbols session) store
              state.calls target words with
          | ok reached =>
              rw [hresult] at hthrough
              obtain ⟨middle, hmiddle, hvalue, hholds, hcalls⟩ := hthrough
              refine ⟨_, Machine.through_append hmiddle _,
                (MachineState.set_same _ _ _).trans hvalue, ?_, hcalls⟩
              exact hholds.untouched layout ((Untouched.refl middle).set rfl _)
          | error ending =>
              rw [hresult] at hthrough
              intro _
              exact Machine.through_append_ended hthrough _

/-! ## Returns -/

/-- A machine is restored if its registers and its return address are. -/
theorem isRestored_iff {state : MachineState} : machine.isRestored state = true ↔
    (∀ register : Register, register.isCalleeSaved = true →
      state.registers register = machine.entry.registers register) ∧
    state.stack (state.registers .rsp) = machine.entry.stack (state.registers .rsp) := by
  have hall : ∀ register : Register, register ∈ Register.all := by
    intro register
    cases register <;> decide
  rw [Machine.isRestored, Bool.and_eq_true, List.all_eq_true, decide_eq_true_iff]
  refine and_congr ⟨fun h register hsaved => ?_, fun h register _ => ?_⟩ Iff.rfl
  · have hregister := h register (hall register)
    rw [hsaved, Bool.not_true, Bool.false_or, decide_eq_true_iff] at hregister
    exact hregister
  · cases hsaved : register.isCalleeSaved with
    | false => rfl
    | true => simpa using h register hsaved

/-- **RETURNS RESTORE EVERYTHING**: the code that leaves a method gives the caller
    its registers back and returns `rax`. -/
theorem Framed.through_epilogueCode (h : Framed context machine size state)
    (layout : Layout context size) : machine.through state (epilogueCode context) =
      .ended (state.stop (.returned (some (state.registers .rax)))) := by
  have hnot : ∀ {register : Register}, register.isAllocatable = false →
      register ∉ context.calleeSaved.reverse :=
    fun hregister hmem => layout.not_mem hregister (List.mem_reverse.mp hmem)
  obtain ⟨popped, hpops, -, hstack, hglobals, hcalls, hrestored, hothers⟩ :=
    @through_pops machine _ _ _ _ _ h.rsp h.kept fun register hregister heq =>
      hnot rfl (heq ▸ hregister)
  have hrbp : popped.registers .rbp = machine.framePointer :=
    (hothers .rbp (hnot rfl) (by decide)).trans h.rbp
  let last := Machine.popped (popped.set .rsp machine.framePointer) .rbp
  have hrsp : last.registers .rsp = machine.entry.registers .rsp := by
    show shifted machine.framePointer 8 = _
    rw [Machine.framePointer, shifted_shifted]
    exact shifted_zero _
  have hrax : last.registers .rax = state.registers .rax :=
    hothers .rax (hnot rfl) (by decide)
  have hisRestored : machine.isRestored last = true := by
    -- the stack and frame pointers come from the link; the others are popped or were kept
    refine isRestored_iff.mpr ⟨fun register hsaved => ?_, ?_⟩
    · by_cases hisRsp : register = .rsp
      · rw [hisRsp, hrsp]
      · by_cases hisRbp : register = .rbp
        · rw [hisRbp]
          show popped.stack machine.framePointer = _
          rw [hstack, h.link]
        · have hsame : last.registers register = popped.registers register := by
            show (MachineState.set _ _ _).registers register = _
            rw [MachineState.set_other _ _ _ hisRbp, MachineState.set_other _ _ _ hisRsp,
              MachineState.set_other _ _ _ hisRsp]
          rw [hsame]
          by_cases hmem : register ∈ context.calleeSaved
          · exact hrestored register (List.mem_reverse.mpr hmem)
          · rw [hothers register (fun h => hmem (List.mem_reverse.mp h)) hisRsp,
              h.others hsaved hmem hisRsp hisRbp]
    · have habove := h.above (Int.le_refl 8) (by omega)
      have htop : last.registers .rsp = shifted machine.framePointer 8 := rfl
      rw [htop]
      show popped.stack _ = _
      rw [hstack, habove]
  have hpopped : machine.through popped [.mov (.reg .rsp) (.reg .rbp), .pop .rbp, .ret] =
      machine.through last [.ret] := by
    rw [Machine.through_cons (show machine.effect popped (.mov (.reg .rsp) (.reg .rbp)) =
      .next (popped.set .rsp (popped.registers .rbp)) from rfl), hrbp]
    rfl
  rw [epilogueCode, popAll, Machine.through_append hpops, hpopped, Machine.through, Machine.effect,
    if_pos hisRestored, hrax]
  show Effect.ended ⟨_, popped.globals, popped.calls⟩ = _
  rw [hglobals, hcalls]
  rfl

end

end Emission

end DecafBackend
