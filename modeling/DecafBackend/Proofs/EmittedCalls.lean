import DecafBackend.Proofs.EmittedValues
import Mathlib.Data.List.Forall2

/-! # Calls in machine code

    The code of a call pushes registers and arguments on top of a frame, and
    takes everything off the stack again behind the callee.

    * `Stacked` — words on top of the stack
    * `Grown` — a state with more words on the stack than another one
    * `through_pops` — words that are popped into registers
    * `Called`, `CallCode.through` — a whole call -/

namespace DecafBackend.Emission

open MachineState (Untouched)

/-- The offsets of a frame and of what is above it. -/
def atFrame (base offset : Int) : Prop := base ≤ offset ∧ offset ≤ 1152921504606846976

/-- Some words stand on the stack, the first one at an offset from an address. -/
def Stacked (state : MachineState) (fp : Word) : Int → List Word → Prop
  | _, [] => True
  | offset, word :: words =>
    state.stack (shifted fp offset) = word ∧ Stacked state fp (offset + 8) words

/-- A change elsewhere keeps what is stacked. -/
theorem Stacked.congr {state after : MachineState} {fp : Word} {offset : Int} {words : List Word}
    (h : Stacked state fp offset words) (hsame : ∀ other : Int, offset ≤ other →
      other < offset + 8 * words.length →
        after.stack (shifted fp other) = state.stack (shifted fp other)) :
    Stacked after fp offset words := by
  induction words generalizing offset with
  | nil => trivial
  | cons word words ih =>
      obtain ⟨hword, hrest⟩ := h
      rw [List.length_cons] at hsame
      refine ⟨(hsame offset (by omega) (by omega)).trans hword, ih hrest ?_⟩
      intro other hlow hhigh
      exact hsame other (by omega) (by omega)

/-- What is stacked in two parts is stacked as a whole. -/
theorem stacked_append {state : MachineState} {fp : Word} {offset : Int}
    {first second : List Word} :
    Stacked state fp offset (first ++ second) ↔
      Stacked state fp offset first ∧ Stacked state fp (offset + 8 * first.length) second := by
  induction first generalizing offset with
  | nil => simp [Stacked]
  | cons word first ih =>
      rw [List.cons_append, Stacked, Stacked, ih, and_assoc, List.length_cons]
      have hoffset : offset + 8 + 8 * (first.length : Int) =
          offset + 8 * ((first.length + 1 : Nat) : Int) := by omega
      rw [hoffset]

/-- Each of the stacked words is at its own place. -/
theorem Stacked.get {state : MachineState} {fp : Word} {offset : Int} {words : List Word}
    (h : Stacked state fp offset words) {i : Nat} {word : Word} (hi : words[i]? = some word) :
    state.stack (shifted fp (offset + 8 * i)) = word := by
  induction words generalizing offset i with
  | nil => cases hi
  | cons first words ih =>
      cases i with
      | zero =>
          cases hi
          rw [show offset + 8 * ((0 : Nat) : Int) = offset by omega]
          exact h.1
      | succ i =>
          rw [show offset + 8 * ((i + 1 : Nat) : Int) = offset + 8 + 8 * (i : Int) by omega]
          exact ih h.2 hi

/-! ## Pushes -/

/-- A state with more words on the stack than another one, which had its stack
    pointer at an offset. -/
structure Grown (fp : Word) (offset : Int) (words : List Word) (before after : MachineState) :
    Prop where
  rsp : after.registers .rsp = shifted fp (offset - 8 * words.length)
  words : Stacked after fp (offset - 8 * words.length) words
  registers : ∀ {register : Register}, register.isOwn = false → register ≠ .rsp →
    after.registers register = before.registers register
  above : ∀ {other : Int}, atFrame offset other →
    after.stack (shifted fp other) = before.stack (shifted fp other)
  globals : after.globals = before.globals
  calls : after.calls = before.calls

namespace Grown

variable {fp : Word} {offset : Int} {words more : List Word} {a b c : MachineState}

/-- A stack that nothing was pushed on has not grown. -/
theorem refl (h : a.registers .rsp = shifted fp offset) : Grown fp offset [] a a where
  rsp := by
    rw [List.length_nil, show offset - 8 * ((0 : Nat) : Int) = offset by omega]
    exact h
  words := trivial
  registers _ _ := rfl
  above _ := rfl
  globals := rfl
  calls := rfl

/-- What is pushed twice goes on top of each other. -/
theorem trans (h₁ : Grown fp offset words a b)
    (h₂ : Grown fp (offset - 8 * words.length) more b c)
    (hhigh : offset ≤ 1152921504606846976) : Grown fp offset (more ++ words) a c := by
  have hlength : offset - 8 * ((more ++ words).length : Int) =
      offset - 8 * words.length - 8 * more.length := by
    rw [List.length_append]
    omega
  refine ⟨?_, ?_, ?_, ?_, h₂.globals.trans h₁.globals, h₂.calls.trans h₁.calls⟩
  · rw [hlength]
    exact h₂.rsp
  · rw [hlength, stacked_append]
    refine ⟨h₂.words, ?_⟩
    rw [show offset - 8 * (words.length : Int) - 8 * more.length + 8 * more.length =
      offset - 8 * words.length by omega]
    refine h₁.words.congr fun other hlow hhigh => h₂.above ⟨hlow, ?_⟩
    omega
  · intro register hown hrsp
    exact (h₂.registers hown hrsp).trans (h₁.registers hown hrsp)
  · intro other hother
    obtain ⟨hlow, hhigh⟩ := hother
    exact (h₂.above ⟨by omega, hhigh⟩).trans (h₁.above ⟨hlow, hhigh⟩)

/-- Values on the way change nothing on the stack. -/
theorem after_untouched (huntouched : Untouched a b) (h : Grown fp offset words b c) :
    Grown fp offset words a c where
  rsp := h.rsp
  words := h.words
  registers hown hrsp := (h.registers hown hrsp).trans (huntouched.registers hown)
  above hother := by rw [h.above hother, huntouched.stack]
  globals := h.globals.trans huntouched.globals
  calls := h.calls.trans huntouched.calls

end Grown

/-- One word is pushed. -/
theorem grown_pushed {fp : Word} {offset : Int} {state : MachineState} (word : Word)
    (hrsp : state.registers .rsp = shifted fp offset) (hlow : -3000000000000000000 ≤ offset) :
    Grown fp offset [word] state (Machine.pushed state word) := by
  have htop : shifted (state.registers .rsp) (-8) = shifted fp (offset - 8) := by
    rw [hrsp, shifted_shifted, Int.sub_eq_add_neg]
  rw [Machine.pushed, htop]
  have hlength : offset - 8 * (([word].length : Nat) : Int) = offset - 8 := by simp
  refine ⟨?_, ?_, ?_, ?_, rfl, rfl⟩
  · rw [hlength, MachineState.put_registers, MachineState.set_same]
  · rw [hlength]
    exact ⟨MachineState.put_same _ _ _, trivial⟩
  · intro register _ hne
    rw [MachineState.put_registers, MachineState.set_other _ _ _ hne]
  · rintro other ⟨hle, hhigh⟩
    rw [MachineState.put_other, MachineState.set_stack]
    intro heq
    have := shifted_injective heq ⟨by omega, by omega⟩
    omega

section

variable {machine : Machine} {fp : Word} {offset : Int} {state : MachineState}

/-- Registers are pushed, the first one first. -/
theorem through_pushAll {registers : List Register}
    (hrsp : state.registers .rsp = shifted fp offset)
    (hlow : -3000000000000000000 + 8 * (registers.length : Int) ≤ offset)
    (hhigh : offset ≤ 1152921504606846976) (hall : ∀ register ∈ registers, register.isOwn = false ∧
      register ≠ .rsp) :
    ∃ after, machine.through state (pushAll registers) = .next after ∧
      Grown fp offset (registers.map state.registers).reverse state after := by
  -- by induction on the registers: the first one is pushed, and the others go below it
  induction registers generalizing state offset with
  | nil => exact ⟨state, rfl, Grown.refl hrsp⟩
  | cons register registers ih =>
      rw [List.length_cons] at hlow
      have hfirst := grown_pushed (state.registers register) hrsp (by omega)
      have hlength : offset - 8 * (([state.registers register].length : Nat) : Int) =
          offset - 8 := by
        simp
      have hrsp' := hfirst.rsp
      rw [hlength] at hrsp'
      obtain ⟨after, hthrough, hgrown⟩ := ih hrsp' (by omega) (by omega) fun other hother =>
        hall other (List.mem_cons_of_mem _ hother)
      have hvalues : registers.map (Machine.pushed state (state.registers register)).registers =
          registers.map state.registers := by
        refine List.map_congr_left fun other hother => ?_
        obtain ⟨hown, hne⟩ := hall other (List.mem_cons_of_mem _ hother)
        exact hfirst.registers hown hne
      rw [hvalues] at hgrown
      refine ⟨after, (Machine.through_cons rfl _).trans hthrough, ?_⟩
      rw [List.map_cons, List.reverse_cons]
      exact hfirst.trans (by rw [hlength]; exact hgrown) hhigh

/-- What is supplied depends on nothing that pushes change. -/
theorem Supplies.grown {context : Context} {session : Session} {access : Access} {word : Word}
    {words : List Word} {after : MachineState}
    (h : Supplies context session machine state access word) (hrbp : state.registers .rbp = fp)
    (hslots : ∀ {loc : Loc} {slot : Int}, context.frame.slot? loc = some slot → atFrame offset slot)
    (hgrown : Grown fp offset words state after) :
    Supplies context session machine after access word := by
  refine h.mono ?_ ?_ hgrown.globals
  · intro register hallocatable
    refine hgrown.registers (Register.not_isOwn hallocatable) ?_
    rintro rfl
    cases hallocatable
  · intro loc slot hslot
    have hrbp' : after.registers .rbp = fp := (hgrown.registers rfl (by decide)).trans hrbp
    rw [hrbp, hrbp']
    exact hgrown.above (hslots hslot)

/-- Arguments are pushed, the first one first. -/
theorem Pushes.through {context : Context} {session : Session} {inst : Inst} {args : List Loc}
    {code : List Instruction} (h : Pushes context session inst args code) {words : List Word}
    (hargs : List.Forall₂ (fun arg word =>
      Supplies context session machine state ⟨inst, arg⟩ word) args words)
    (hrbp : state.registers .rbp = fp) (hrsp : state.registers .rsp = shifted fp offset)
    (hslots : ∀ {loc : Loc} {slot : Int}, context.frame.slot? loc = some slot → atFrame offset slot)
    (hlow : -3000000000000000000 + 8 * (args.length : Int) ≤ offset)
    (hhigh : offset ≤ 1152921504606846976) :
    ∃ after, machine.through state code = .next after ∧
      Grown fp offset words.reverse state after := by
  -- the words below keep the frame, so the other arguments are supplied still
  induction h generalizing state offset words with
  | nil =>
      cases hargs
      exact ⟨state, rfl, Grown.refl hrsp⟩
  | @cons arg args register pool code rest hreads _ ih =>
      cases hargs with
      | @cons _ word _ words hfirst hrest =>
          rw [List.length_cons] at hlow
          obtain ⟨middle, hmiddle, hword, huntouched, -⟩ := hreads.through hfirst
          have hpushed := (grown_pushed word ((huntouched.registers rfl).trans hrsp)
            (by omega)).after_untouched huntouched
          have hlength : offset - 8 * (([word].length : Nat) : Int) = offset - 8 := by simp
          have hrsp' := hpushed.rsp
          rw [hlength] at hrsp'
          obtain ⟨after, hafter, hgrown⟩ := ih
            (hrest.imp fun _ _ hsupplies => hsupplies.grown hrbp hslots hpushed)
            ((hpushed.registers rfl (by decide)).trans hrbp) hrsp'
            (fun hslot => ⟨by have := (hslots hslot).1; omega, (hslots hslot).2⟩)
            (by omega) (by omega)
          refine ⟨after, (Machine.through_append hmiddle _).trans
            ((Machine.through_cons ?_ _).trans hafter), ?_⟩
          · rw [← hword]
            rfl
          · rw [List.reverse_cons]
            exact hpushed.trans (by rw [hlength]; exact hgrown) hhigh

/-! ## Pops -/

/-- Words are popped into registers; each register gets one word, however often
    it comes. -/
theorem through_pops {registers : List Register} {word : Register → Word}
    (hrsp : state.registers .rsp = shifted fp offset)
    (hwords : Stacked state fp offset (registers.map word))
    (hall : ∀ register ∈ registers, register ≠ .rsp) :
    ∃ after, machine.through state (registers.map .pop) = .next after ∧
      after.registers .rsp = shifted fp (offset + 8 * registers.length) ∧
      after.stack = state.stack ∧ after.globals = state.globals ∧ after.calls = state.calls ∧
      (∀ register ∈ registers, after.registers register = word register) ∧
      ∀ register, register ∉ registers → register ≠ .rsp →
        after.registers register = state.registers register := by
  -- by induction on the registers: the first one takes the lowest word
  induction registers generalizing state offset with
  | nil =>
      refine ⟨state, rfl, ?_, rfl, rfl, rfl, ?_, fun _ _ _ => rfl⟩
      · rw [hrsp, List.length_nil, show offset + 8 * ((0 : Nat) : Int) = offset by omega]
      · intro register h
        cases h
  | cons first registers ih =>
      obtain ⟨hfirst, hrest⟩ := hwords
      have hne := hall first List.mem_cons_self
      let next := Machine.popped state first
      have hnext : next = (state.set .rsp (shifted fp (offset + 8))).set first (word first) := by
        show (state.set _ _).set _ _ = _
        rw [hrsp, shifted_shifted, hfirst]
      have hrsp' : next.registers .rsp = shifted fp (offset + 8) := by
        rw [hnext, MachineState.set_other _ _ _ (Ne.symm hne), MachineState.set_same]
      have hstack : next.stack = state.stack := by
        rw [hnext]
        rfl
      obtain ⟨after, hthrough, hafter, hstack', hglobals, hcalls, hpopped, hothers⟩ := ih hrsp'
        (hrest.congr fun other _ _ => by rw [hstack])
        (fun register hregister => hall register (List.mem_cons_of_mem _ hregister))
      refine ⟨after, (Machine.through_cons rfl _).trans hthrough, ?_, hstack'.trans hstack,
        hglobals.trans ?_, hcalls.trans ?_, ?_, ?_⟩
      · rw [hafter, List.length_cons]
        congr 1
        omega
      · rw [hnext]
        rfl
      · rw [hnext]
        rfl
      · intro register hregister
        by_cases hmem : register ∈ registers
        · exact hpopped register hmem
        · obtain rfl : register = first := (List.mem_cons.mp hregister).resolve_right hmem
          rw [hothers register hmem hne, hnext, MachineState.set_same]
      · intro register hregister hrspNe
        rw [List.mem_cons, not_or] at hregister
        rw [hothers register hregister.2 hrspNe, hnext,
          MachineState.set_other _ _ _ hregister.1, MachineState.set_other _ _ _ hrspNe]

/-! ## Whole calls -/

/-- A word is pushed one place lower. -/
theorem shifted_sub (address : Word) (offset : Int) :
    shifted address offset - 8 = shifted address (offset - 8) := by
  rw [shifted, shifted, Int64.ofInt_sub, Int64.sub_eq_add_neg, Int64.sub_eq_add_neg,
    Int64.add_assoc]
  rfl

/-- Distances add up. -/
theorem shifted_add (address : Word) (offset : Int) (distance : Nat) :
    shifted address offset + Int64.ofNat distance = shifted address (offset + distance) := by
  rw [shifted, shifted, Int64.ofInt_add, Int64.add_assoc, Int64.ofInt_eq_ofNat]

/-- The word that an argument register gets. -/
def argumentWord (words : List Word) (register : Register) : Word :=
  words[Register.arguments.idxOf register]?.getD 0

/-- The words of the argument registers are the first words. -/
theorem map_argumentWord {words : List Word} (h : words.length ≤ Register.arguments.length) :
    (Register.arguments.take words.length).map (argumentWord words) = words := by
  refine List.ext_getElem? fun i => ?_
  rw [List.getElem?_map, List.getElem?_take]
  by_cases hi : i < words.length
  · have hlt : i < Register.arguments.length := Nat.lt_of_lt_of_le hi h
    rw [if_pos hi, List.getElem?_eq_getElem hlt, Option.map_some, argumentWord,
      List.Nodup.idxOf_getElem (by decide) i hlt, List.getElem?_eq_getElem hi]
    rfl
  · rw [if_neg hi, List.getElem?_eq_none (Nat.le_of_not_lt hi)]
    rfl

/-- What a call leaves of a state. -/
structure Called (fp : Word) (base : Int) (saved : List Register) (before after : MachineState)
    (globals : Globals) (calls : List CallEvent) (result : Word) : Prop where
  result : after.registers .rax = result
  registers : ∀ {register : Register}, register ∈ saved ∨ register.isCalleeSaved = true →
    after.registers register = before.registers register
  above : ∀ {offset : Int}, atFrame base offset →
    after.stack (shifted fp offset) = before.stack (shifted fp offset)
  globals : after.globals = globals
  calls : after.calls = calls

/-- A word more is put on the stack if the stack would not be aligned. -/
theorem through_padding {isPadded : Bool} (hrsp : state.registers .rsp = shifted fp offset) :
    ∃ after words, machine.through state
        (if isPadded then [.alu .sub (.reg .rsp) (.imm 8)] else []) = .next after ∧
      words.length = isPadded.toNat ∧ Grown fp offset words state after := by
  cases isPadded with
  | false => exact ⟨state, [], rfl, rfl, Grown.refl hrsp⟩
  | true =>
      refine ⟨_, [state.stack (shifted fp (offset - 8))], rfl, rfl, ?_⟩
      have hlength : offset - 8 * (([state.stack (shifted fp (offset - 8))].length : Nat) : Int) =
          offset - 8 := by simp
      have hafter : (Machine.operand machine state (.reg .rsp)) - Machine.operand machine state
          (.imm 8) = shifted fp (offset - 8) := by
        show state.registers .rsp - 8 = _
        rw [hrsp, shifted_sub]
      refine ⟨?_, ?_, ?_, fun _ => rfl, rfl, rfl⟩
      · rw [hlength, ← hafter]
        exact MachineState.set_same _ _ _
      · rw [hlength]
        exact ⟨rfl, trivial⟩
      · intro register _ hne
        exact MachineState.set_other _ _ _ hne

/-- Words are taken off the stack. -/
theorem through_cleanup {size : Nat} (hrsp : state.registers .rsp = shifted fp (offset - size)) :
    ∃ after, machine.through state (if 0 < size then
        [.alu .add (.reg .rsp) (.imm (Int64.ofNat size))] else []) = .next after ∧
      after.registers .rsp = shifted fp offset ∧ after.stack = state.stack ∧
      after.globals = state.globals ∧ after.calls = state.calls ∧
      ∀ register, register ≠ .rsp → after.registers register = state.registers register := by
  split
  · refine ⟨_, rfl, ?_, rfl, rfl, rfl, fun _ hne => MachineState.set_other _ _ _ hne⟩
    rw [MachineState.set_same]
    show state.registers .rsp + Int64.ofNat size = _
    rw [hrsp, shifted_add]
    congr 1
    omega
  · refine ⟨state, rfl, ?_, rfl, rfl, rfl, fun _ _ => rfl⟩
    rw [hrsp]
    congr 1
    omega

/-- What a callee finds when it is called: the arguments in place, above them the
    registers that were saved, and then what was on the stack before. -/
structure Passed (fp : Word) (base : Int) (saved : List Register) (words : List Word) (size : Nat)
    (before after : MachineState) : Prop where
  arguments : ∀ {i : Nat} {word : Word}, words[i]? = some word → Machine.argument after i = word
  rsp : after.registers .rsp = shifted fp (base - 8 * saved.length - size)
  registers : ∀ {register : Register}, register.isCalleeSaved = true → register ≠ .rsp →
    after.registers register = before.registers register
  saved : Stacked after fp (base - 8 * saved.length) (saved.reverse.map before.registers)
  above : ∀ {offset : Int}, atFrame base offset →
    after.stack (shifted fp offset) = before.stack (shifted fp offset)
  globals : after.globals = before.globals
  calls : after.calls = before.calls

/-- Arguments are popped into their registers. -/
theorem through_popArguments {words : List Word} (hwords : words.length ≤ Register.arguments.length)
    (hrsp : state.registers .rsp = shifted fp (offset - 8 * words.length))
    (hstacked : Stacked state fp (offset - 8 * words.length) words.reverse) :
    ∃ after, machine.through state (popAll (Register.arguments.take words.length)) = .next after ∧
      after.registers .rsp = shifted fp offset ∧ after.stack = state.stack ∧
      after.globals = state.globals ∧ after.calls = state.calls ∧
      (∀ {i : Nat} {register : Register} {word : Word}, Register.arguments[i]? = some register →
        words[i]? = some word → after.registers register = word) ∧
      ∀ {register : Register}, register ∉ Register.arguments → register ≠ .rsp →
        after.registers register = state.registers register := by
  have hmap := map_argumentWord hwords
  have hreverse : (Register.arguments.take words.length).reverse.map (argumentWord words) =
      words.reverse := by
    rw [List.map_reverse, hmap]
  -- the first argument was pushed first, so it is popped last
  rw [← hreverse] at hstacked
  obtain ⟨after, hthrough, hafter, hstack, hglobals, hcalls, hpopped, hothers⟩ :=
    @through_pops machine fp _ state _ _ hrsp hstacked (by
      intro register hregister
      have hmem := List.mem_of_mem_take (List.mem_reverse.mp hregister)
      rintro rfl
      revert hmem
      decide)
  refine ⟨after, hthrough, ?_, hstack, hglobals, hcalls, ?_, ?_⟩
  · rw [hafter, List.length_reverse, List.length_take, Nat.min_eq_left hwords]
    congr 1
    omega
  · intro i register word hregister hword
    have hi : i < words.length := (List.getElem?_eq_some_iff.mp hword).1
    have htaken : (Register.arguments.take words.length)[i]? = some register := by
      rw [List.getElem?_take, if_pos hi, hregister]
    rw [hpopped register (List.mem_reverse.mpr (List.mem_of_getElem? htaken))]
    have hvalue := congrArg (·[i]?) hmap
    simp only [List.getElem?_map, htaken, Option.map_some, hword, Option.some.injEq] at hvalue
    exact hvalue
  · intro register hregister hne
    refine hothers register (fun hmem => hregister ?_) hne
    exact List.mem_of_mem_take (List.mem_reverse.mp hmem)

end

section

variable {context : Context} {session : Session} {machine : Machine} {state : MachineState}
  {fp : Word} {base : Int} {inst : Inst} {args : List Loc} {saved : List Register}
  {words : List Word}

/-- What the code of a call relies on. -/
structure Callable (context : Context) (session : Session) (machine : Machine)
    (state : MachineState) (fp : Word) (base : Int) (inst : Inst) (args : List Loc)
    (saved : List Register) (words : List Word) : Prop where
  rbp : state.registers .rbp = fp
  rsp : state.registers .rsp = shifted fp base
  slots : ∀ {loc : Loc} {slot : Int}, context.frame.slot? loc = some slot → atFrame base slot
  supplied : List.Forall₂ (fun arg word =>
    Supplies context session machine state ⟨inst, arg⟩ word) args words
  allocatable : ∀ register ∈ saved, register.isAllocatable = true
  savedCount : saved.length ≤ 16
  argCount : args.length < 288230376151711744
  low : -8589934592 ≤ base
  high : base ≤ 0

/-- No more arguments stay on the stack than there are. -/
theorem onStack_length_le (args : List Loc) : (onStack args).length ≤ args.length := by
  rw [onStack, List.length_drop]
  omega

/-- Six arguments at most go to registers. -/
theorem inRegisters_length_le (args : List Loc) : (inRegisters args).length ≤ 6 := by
  rw [inRegisters, List.length_take]
  exact Nat.min_le_left _ _

/-- The registers to preserve, a word for the alignment, and the arguments that
    stay on the stack are pushed. -/
theorem Callable.through_stacking
    (h : Callable context session machine state fp base inst args saved words)
    {stacked : List Instruction}
    (hstacked : Pushes context session inst (onStack args).reverse stacked) :
    ∃ after padding, machine.through state (pushAll saved ++
        ((if isPadded args saved then [.alu .sub (.reg .rsp) (.imm 8)] else []) ++ stacked)) =
          .next after ∧
      padding.length = (isPadded args saved).toNat ∧
      Grown fp base (words.drop 6 ++ (padding ++ (saved.map state.registers).reverse)) state
        after := by
  have hlow := h.low
  have hhigh := h.high
  have hcount := h.savedCount
  have hargCount := h.argCount
  have hstackCount := onStack_length_le args
  have hpadded : (isPadded args saved).toNat ≤ 1 := Bool.toNat_le _
  have hown : ∀ register ∈ saved, register.isOwn = false ∧ register ≠ .rsp := by
    intro register hregister
    have hallocatable := h.allocatable register hregister
    refine ⟨Register.not_isOwn hallocatable, ?_⟩
    rintro rfl
    cases hallocatable
  obtain ⟨s₁, through₁, grown₁⟩ := @through_pushAll machine fp base state saved h.rsp (by omega)
    (by omega) hown
  obtain ⟨s₂, padding, through₂, hpadding, grown₂⟩ :=
    -- the saved registers and the padding come first, the arguments on the stack below them
    @through_padding machine fp _ s₁ (isPadded args saved) grown₁.rsp
  have grown₁₂ := grown₁.trans grown₂ (by omega)
  have hlength : ((padding ++ (saved.map state.registers).reverse).length : Int) =
      saved.length + (isPadded args saved).toNat := by
    rw [List.length_append, hpadding, List.length_reverse, List.length_map]
    omega
  have hargs : List.Forall₂ (fun arg word =>
      Supplies context session machine s₂ ⟨inst, arg⟩ word) (onStack args).reverse
        (words.drop 6).reverse :=
    List.forall₂_reverse_iff.mpr (List.forall₂_drop 6 (h.supplied.imp fun _ _ hsupplied =>
      hsupplied.grown h.rbp h.slots grown₁₂))
  obtain ⟨s₃, through₃, grown₃⟩ := hstacked.through hargs
    ((grown₁₂.registers rfl (by decide)).trans h.rbp) grown₁₂.rsp
    (fun hslot => ⟨by have := (h.slots hslot).1; omega, (h.slots hslot).2⟩)
    (by rw [List.length_reverse, hlength]; omega) (by omega)
  rw [List.reverse_reverse] at grown₃
  refine ⟨s₃, padding, ?_, hpadding, grown₁₂.trans grown₃ (by omega)⟩
  rw [Machine.through_append through₁, Machine.through_append through₂, through₃]

/-- The first arguments are in their registers, and everything else that matters
    is as it was. -/
structure Loaded (fp : Word) (base : Int) (words : List Word) (before after : MachineState) :
    Prop where
  arguments : ∀ {i : Nat} {register : Register} {word : Word},
    Register.arguments[i]? = some register → words[i]? = some word →
      after.registers register = word
  registers : ∀ {register : Register}, register.isCalleeSaved = true →
    after.registers register = before.registers register
  above : ∀ {offset : Int}, atFrame base offset →
    after.stack (shifted fp offset) = before.stack (shifted fp offset)
  globals : after.globals = before.globals
  calls : after.calls = before.calls

/-- An external callee is told that there are no vector arguments. -/
theorem Loaded.through_clearing {before : MachineState} (h : Loaded fp base words before state)
    (isExternal : Bool) :
    ∃ after, machine.through state
        (if isExternal then [.alu .xor (.reg .rax) (.reg .rax)] else []) = .next after ∧
      Loaded fp base words before after := by
  cases isExternal with
  | false => exact ⟨state, rfl, h⟩
  | true =>
      have hother : ∀ {register : Register}, register ≠ .rax → ∀ word,
          ((state.flag none).set .rax word).registers register = state.registers register :=
        fun hne word => MachineState.set_other (state.flag none) _ word hne
      refine ⟨_, rfl, ?_, ?_, h.above, h.globals, h.calls⟩
      · intro i register word hregister hword
        refine (hother ?_ _).trans (h.arguments hregister hword)
        rintro rfl
        exact absurd (List.mem_of_getElem? hregister) (by decide)
      · intro register hsaved
        refine (hother ?_ _).trans (h.registers hsaved)
        rintro rfl
        cases hsaved

/-- The other arguments are pushed and popped into their registers. -/
theorem Callable.through_loading
    (h : Callable context session machine state fp base inst args saved words)
    {registered : List Instruction} {middle : MachineState} {pushed : List Word}
    (hgrown : Grown fp base pushed state middle)
    (hpushed : (pushed.length : Int) ≤ args.length + 17)
    (hregistered : Pushes context session inst (inRegisters args) registered)
    (isExternal : Bool) :
    ∃ after, machine.through middle (registered ++
        (popAll (Register.arguments.take (inRegisters args).length) ++
        (if isExternal then [.alu .xor (.reg .rax) (.reg .rax)] else []))) = .next after ∧
      Loaded fp (base - 8 * pushed.length) words middle after := by
  have hlow := h.low
  have hhigh := h.high
  have hargCount := h.argCount
  have hregisterCount := inRegisters_length_le args
  have hargs : List.Forall₂ (fun arg word =>
      Supplies context session machine middle ⟨inst, arg⟩ word) (inRegisters args)
        (words.take 6) :=
    List.forall₂_take 6 (h.supplied.imp fun _ _ hsupplied =>
      hsupplied.grown h.rbp h.slots hgrown)
  obtain ⟨s₁, through₁, grown₁⟩ := hregistered.through hargs
    ((hgrown.registers rfl (by decide)).trans h.rbp) hgrown.rsp
    (fun hslot => ⟨by have := (h.slots hslot).1; omega, (h.slots hslot).2⟩) (by omega) (by omega)
  have hrsp := grown₁.rsp
  have hwords := grown₁.words
  rw [List.length_reverse] at hrsp hwords
  -- the pops take off what the pushes put on, so the stack is where it was
  obtain ⟨s₂, through₂, hrsp₂, hstack₂, hglobals₂, hcalls₂, hpopped, hothers⟩ :=
    @through_popArguments machine fp _ s₁ (words.take 6)
      (by rw [List.length_take]; exact Nat.min_le_left _ _) hrsp hwords
  have hcount : (words.take 6).length = (inRegisters args).length := by
    rw [inRegisters, List.length_take, List.length_take, h.supplied.length_eq]
    rfl
  rw [hcount] at through₂
  have hloaded : Loaded fp (base - 8 * pushed.length) words middle s₂ := by
    refine ⟨?_, ?_, ?_, hglobals₂.trans grown₁.globals, hcalls₂.trans grown₁.calls⟩
    · intro i register word hregister hword
      have hi : i < 6 := (List.getElem?_eq_some_iff.mp hregister).1
      exact hpopped hregister (by rw [List.getElem?_take, if_pos hi, hword])
    · intro register hsaved
      by_cases hne : register = .rsp
      · rw [hne, hrsp₂, hgrown.rsp]
      · have hnot : register ∉ Register.arguments ∧ register.isOwn = false := by
          revert hsaved
          cases register <;> decide
        rw [hothers hnot.1 hne, grown₁.registers hnot.2 hne]
    · intro offset hoffset
      rw [hstack₂]
      exact grown₁.above hoffset
  obtain ⟨s₃, through₃, hcleared⟩ := hloaded.through_clearing isExternal
  refine ⟨s₃, ?_, hcleared⟩
  rw [Machine.through_append through₁, Machine.through_append through₂, through₃]

/-- Everything is put in place for a callee. -/
theorem Callable.through_passing
    (h : Callable context session machine state fp base inst args saved words)
    {stacked registered : List Instruction}
    (hstacked : Pushes context session inst (onStack args).reverse stacked)
    (hregistered : Pushes context session inst (inRegisters args) registered)
    (isExternal : Bool) :
    ∃ after, machine.through state (pushAll saved ++
        ((if isPadded args saved then [.alu .sub (.reg .rsp) (.imm 8)] else []) ++
        (stacked ++ (registered ++
        (popAll (Register.arguments.take (inRegisters args).length) ++
        (if isExternal then [.alu .xor (.reg .rax) (.reg .rax)] else [])))))) = .next after ∧
      Passed fp base saved words (cleanup args saved) state after := by
  have hhigh := h.high
  have hcount := h.savedCount
  have hstackCount := onStack_length_le args
  have hpadded : (isPadded args saved).toNat ≤ 1 := Bool.toNat_le _
  obtain ⟨middle, padding, hmiddle, hpadding, hgrown⟩ := h.through_stacking hstacked
  have hdropped : (words.drop 6).length = (onStack args).length := by
    rw [onStack, List.length_drop, List.length_drop, h.supplied.length_eq]
    rfl
  have hlength : ((words.drop 6 ++ (padding ++ (saved.map state.registers).reverse)).length : Int) =
      (onStack args).length + ((isPadded args saved).toNat + saved.length) := by
    rw [List.length_append, List.length_append, hdropped, hpadding, List.length_reverse,
      List.length_map]
    omega
  obtain ⟨after, hafter, hloaded⟩ :=
    h.through_loading hgrown (by omega) hregistered isExternal
  have hbase : base - 8 * ((words.drop 6 ++ (padding ++
      (saved.map state.registers).reverse)).length : Int) =
        base - 8 * saved.length - cleanup args saved := by
    rw [hlength, cleanup]
    omega
  have hrsp : after.registers .rsp = shifted fp (base - 8 * saved.length - cleanup args saved) := by
    rw [hloaded.registers rfl, hgrown.rsp, hbase]
  -- what is above the arguments is as it was before the others were pushed
  have hstack : Stacked after fp (base - 8 * saved.length - cleanup args saved)
      (words.drop 6 ++ (padding ++ (saved.map state.registers).reverse)) := by
    rw [← hbase]
    refine hgrown.words.congr fun other hother hless => hloaded.above ⟨hother, ?_⟩
    omega
  refine ⟨after, ?_, ?_, hrsp, ?_, ?_, ?_, hloaded.globals.trans hgrown.globals,
    hloaded.calls.trans hgrown.calls⟩
  · rw [← hafter, ← Machine.through_append hmiddle]
    simp only [List.append_assoc]
  · intro i word hword
    rw [Machine.argument]
    cases hregister : Register.arguments[i]? with
    | some register => exact hloaded.arguments hregister hword
    | none =>
        have hi : 6 ≤ i := List.getElem?_eq_none_iff.mp hregister
        have hget := (stacked_append.mp hstack).1.get (show (words.drop 6)[i - 6]? = some word by
          rw [List.getElem?_drop, Nat.add_sub_cancel' hi, hword])
        rw [hrsp]
        show after.stack (shifted (shifted fp _) _) = word
        rw [shifted_shifted]
        exact hget
  · intro register hsaved hne
    have hown : register.isOwn = false := by
      revert hsaved
      cases register <;> decide
    rw [hloaded.registers hsaved, hgrown.registers hown hne]
  · obtain ⟨-, hrest⟩ := stacked_append.mp hstack
    obtain ⟨-, hsaved⟩ := stacked_append.mp hrest
    rw [List.map_reverse]
    have hoffset : base - 8 * (saved.length : Int) - cleanup args saved +
        8 * ((words.drop 6).length : Int) + 8 * (padding.length : Int) =
          base - 8 * saved.length := by
      rw [hdropped, hpadding, cleanup]
      omega
    rw [hoffset] at hsaved
    exact hsaved
  · intro offset hoffset
    rw [hloaded.above ⟨by have := hoffset.1; omega, hoffset.2⟩]
    exact hgrown.above hoffset

/-- The call as the callee sees it. -/
theorem Passed.event_eq {size : Nat} {after : MachineState}
    (h : Passed fp base saved words size state after) (name : String) :
    Machine.event after name words.length = ⟨name, words, state.globals⟩ := by
  have hargs : (List.range words.length).map (Machine.argument after) = words := by
    refine List.ext_getElem? fun i => ?_
    rw [List.getElem?_map]
    by_cases hi : i < words.length
    · rw [List.getElem?_range hi, List.getElem?_eq_getElem hi, Option.map_some,
        h.arguments (List.getElem?_eq_getElem hi)]
    · rw [List.getElem?_eq_none (Nat.le_of_not_lt hi), List.getElem?_eq_none
        (by rw [List.length_range]; exact Nat.le_of_not_lt hi), Option.map_none]
  rw [Machine.event, hargs, h.globals]

/-- Behind the callee, everything that was pushed is taken off the stack. -/
theorem Passed.through_returning {size : Nat} {after : MachineState} {machine : Machine}
    (h : Passed fp base saved words size state after)
    (hbase : state.registers .rsp = shifted fp base)
    (hallocatable : ∀ register ∈ saved, register.isAllocatable = true)
    (hcount : saved.length ≤ 16) (hsize : size < 2400000000000000000) (hlow : -8589934592 ≤ base)
    (hhigh : base ≤ 0) (calls : List CallEvent) (globals : Globals) (result : Word) :
    ∃ final, machine.through (machine.returned after calls globals result)
        ((if 0 < size then [.alu .add (.reg .rsp) (.imm (Int64.ofNat size))] else []) ++
          popAll saved) = .next final ∧
      Called fp base saved state final globals calls result := by
  -- the callee may change caller-saved registers and what is below the stack pointer
  let returned := machine.returned after calls globals result
  have hregister : ∀ {register : Register}, register.isCalleeSaved = true →
      returned.registers register = after.registers register := by
    intro register hsaved
    have hne : register ≠ .rax := by
      rintro rfl
      cases hsaved
    have hcaller : register.isCallerSaved = false := by
      rw [Register.isCalleeSaved] at hsaved
      simpa using hsaved
    show (if register = .rax then _ else if register.isCallerSaved then _ else _) = _
    rw [if_neg hne, hcaller]
    rfl
  have hstack : ∀ {offset : Int}, atFrame (base - 8 * saved.length) offset →
      returned.stack (shifted fp offset) = after.stack (shifted fp offset) := by
    rintro offset ⟨hfrom, hto⟩
    show (if isBelow (shifted fp offset) (after.registers .rsp) then _ else _) = _
    rw [h.rsp, isBelow_shifted ⟨by omega, by omega⟩, if_neg]
    simp only [decide_eq_true_eq]
    omega
  obtain ⟨cleared, hcleared, hrsp, hstack', hglobals, hcalls, hothers⟩ :=
    through_cleanup ((hregister rfl).trans h.rsp)
  have hstacked : Stacked cleared fp (base - 8 * saved.length)
      (saved.reverse.map state.registers) := by
    refine h.saved.congr fun other hother hless => ?_
    rw [hstack', hstack ⟨hother, ?_⟩]
    rw [List.length_map, List.length_reverse] at hless
    omega
  obtain ⟨final, hfinal, hrspFinal, hstackFinal, hglobalsFinal, hcallsFinal, hpopped, hkept⟩ :=
    @through_pops machine fp _ cleared saved.reverse state.registers hrsp hstacked (by
      intro register hmem
      have hregister := hallocatable register (List.mem_reverse.mp hmem)
      rintro rfl
      cases hregister)
  refine ⟨final, (Machine.through_append hcleared _).trans hfinal, ?_, ?_, ?_, ?_, ?_⟩
  · have hrax : .rax ∉ saved.reverse := by
      intro hmem
      cases hallocatable _ (List.mem_reverse.mp hmem)
    rw [hkept .rax hrax (by decide), hothers .rax (by decide)]
    rfl
  -- what was saved is popped, other registers are as the callee leaves them
  · intro register hregisterKept
    by_cases hmem : register ∈ saved
    · exact hpopped register (List.mem_reverse.mpr hmem)
    · have hsaved := hregisterKept.resolve_left hmem
      by_cases hrspEq : register = .rsp
      · rw [hrspEq, hrspFinal, hbase, List.length_reverse]
        congr 1
        omega
      · rw [hkept register (fun h => hmem (List.mem_reverse.mp h)) hrspEq, hothers register hrspEq,
          hregister hsaved, h.registers hsaved hrspEq]
  · intro offset hoffset
    rw [hstackFinal, hstack', hstack ⟨by have := hoffset.1; omega, hoffset.2⟩, h.above hoffset]
  · exact hglobalsFinal.trans hglobals
  · exact hcallsFinal.trans hcalls

/-- **CALLS ARE MADE AS THEY SHOULD**: the callee sees the arguments and the
    fields, and if it comes back, the frame is as it was. -/
theorem CallCode.through {target : Symbol} {isExternal : Bool} {code : List Instruction}
    {name : String} (h : CallCode context session inst target args isExternal saved code)
    (hcallable : Callable context session machine state fp base inst args saved words)
    (hname : context.symbols.text target = .ok name)
    (hcallee : machine.callee state.calls name = .takes words.length) :
    match (machine.environment (⟨name, words, state.globals⟩ :: state.calls)).result with
    | .ok result => ∃ after, machine.through state code = .next after ∧
        Called fp base saved state after
          (machine.environment (⟨name, words, state.globals⟩ :: state.calls)).globals
          (⟨name, words, state.globals⟩ :: state.calls) result
    | .error abort => machine.through state code = .ended ⟨.aborted abort,
        (machine.environment (⟨name, words, state.globals⟩ :: state.calls)).globals,
        ⟨name, words, state.globals⟩ :: state.calls⟩ := by
  obtain ⟨hname', hstacked, hregistered⟩ := h
  cases hname.symm.trans hname'
  obtain ⟨passed, hthrough, hpassed⟩ :=
    hcallable.through_passing hstacked hregistered isExternal
  simp only [← List.append_assoc] at hthrough ⊢
  have heffect : machine.effect passed (.call name) = machine.callOut passed name := rfl
  simp only [Machine.callOut, hcallee, hpassed.event_eq, hpassed.calls] at heffect
  -- a callee that comes back is followed by the clean-up; one that aborts ends the run
  cases hreply : (machine.environment (⟨name, words, state.globals⟩ :: state.calls)).result with
  | ok result =>
      simp only [hreply] at heffect
      have hsize : cleanup args saved < 2400000000000000000 := by
        have hargCount := hcallable.argCount
        have hpadded : (isPadded args saved).toNat ≤ 1 := Bool.toNat_le _
        rw [cleanup, onStack, List.length_drop]
        omega
      obtain ⟨final, hfinal, hcalled⟩ := hpassed.through_returning hcallable.rsp
        hcallable.allocatable hcallable.savedCount hsize hcallable.low hcallable.high
        (⟨name, words, state.globals⟩ :: state.calls)
        (machine.environment (⟨name, words, state.globals⟩ :: state.calls)).globals result
      refine ⟨final, ?_, hcalled⟩
      rw [Machine.through_append hthrough, Machine.through_cons heffect]
      exact hfinal
  | error abort =>
      simp only [hreply] at heffect
      rw [Machine.through_append hthrough, Machine.through, heffect]

end

end DecafBackend.Emission
