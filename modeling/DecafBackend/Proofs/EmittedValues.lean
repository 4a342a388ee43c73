import DecafBackend.Proofs.EmissionCode
import DecafBackend.Proofs.MachineExecution

/-! # Values in machine code

    The code of a value leaves it in a register and changes nothing besides the
    registers that code uses within a statement.

    * `Untouched` — two states that differ in these registers only
    * `Supplies`, `Reads.through` — what an access reads
    * `through_unaryCode`, `through_binaryCode` — operators -/

namespace DecafBackend

/-- Whether code uses a register for itself within a statement. -/
def Register.isOwn : Register → Bool
  | rax | rdx | r10 | r11 => true
  | _ => false

/-- A register that can be allocated is not used by the emitter. -/
theorem Register.not_isOwn {register : Register} (h : register.isAllocatable = true) :
    register.isOwn = false := by
  cases register with
  | rax | rdx | r10 | r11 => cases h
  | rbx | rcx | rsi | rdi | rbp | rsp | r8 | r9 | r12 | r13 | r14 | r15 => rfl

namespace MachineState

/-- Two states that differ in the registers that code uses for itself, and in
    what was compared last. -/
structure Untouched (before after : MachineState) : Prop where
  registers : ∀ {register : Register}, register.isOwn = false →
    after.registers register = before.registers register
  stack : after.stack = before.stack
  globals : after.globals = before.globals
  calls : after.calls = before.calls

namespace Untouched

/-- Nothing is touched where nothing happens. -/
theorem refl (state : MachineState) : Untouched state state := ⟨fun _ => rfl, rfl, rfl, rfl⟩

/-- What is untouched twice is untouched. -/
theorem trans {a b c : MachineState} (h₁ : Untouched a b) (h₂ : Untouched b c) : Untouched a c :=
  ⟨fun h => (h₂.registers h).trans (h₁.registers h), h₂.stack.trans h₁.stack,
    h₂.globals.trans h₁.globals, h₂.calls.trans h₁.calls⟩

/-- The emitter's own registers may be set. -/
theorem set {before after : MachineState} (h : Untouched before after) {register : Register}
    (hown : register.isOwn = true) (word : Word) : Untouched before (after.set register word) := by
  refine h.trans ⟨fun {other} hother => set_other after register word ?_, rfl, rfl, rfl⟩
  rintro rfl
  exact Bool.noConfusion (hown.symm.trans hother)

/-- A comparison touches no register. -/
theorem flag {before after : MachineState} (h : Untouched before after)
    (compared : Option (Word × Word)) : Untouched before (after.flag compared) :=
  h.trans ⟨fun _ => rfl, rfl, rfl, rfl⟩

/-- A run ends alike in states that differ in the emitter's registers only. -/
theorem stop {before after : MachineState} (h : Untouched before after) (outcome : Outcome) :
    after.stop outcome = before.stop outcome := by
  rw [MachineState.stop, MachineState.stop, h.globals, h.calls]

end Untouched

end MachineState

open MachineState (Untouched)

/-! ## Division -/

/-- The unsigned reading of a word. -/
theorem toNat_toUInt64 (a : Word) : (a.toUInt64.toNat : Int) =
    if a.toInt < 0 then a.toInt + 18446744073709551616 else a.toInt := by
  have hnat : a.toUInt64.toNat = a.toBitVec.toNat := rfl
  have hint : a.toInt = a.toBitVec.toInt := rfl
  rw [hnat, hint, BitVec.toInt_eq_toNat_cond]
  have := a.toBitVec.isLt
  split <;> split <;> omega

/-- A word with its sign extended is a dividend of the same value. -/
theorem dividend_eq (a : Word) :
    (if a < 0 then (-1 : Word) else 0).toInt * 18446744073709551616 + a.toUInt64.toNat =
      a.toInt := by
  have hzero : Int64.toInt 0 = 0 := by decide
  have hone : Int64.toInt (-1) = -1 := by decide
  have hsign : a < 0 ↔ a.toInt < 0 := by
    rw [Int64.lt_iff_toInt_lt, hzero]
  rw [toNat_toUInt64]
  by_cases hneg : a < 0
  · rw [if_pos hneg, hone, if_pos (hsign.mp hneg)]
    omega
  · rw [if_neg hneg, hzero, if_neg fun h => hneg (hsign.mpr h)]
    omega

/-- A quotient of words fits a word, with one exception. -/
theorem quotient_fits {a b : Word} (hb : b ≠ 0) :
    (a.toInt.tdiv b.toInt < Int64.minValue.toInt ∨ Int64.maxValue.toInt < a.toInt.tdiv b.toInt) ↔
      (a = Int64.minValue ∧ b = -1) := by
  have hmin : Int64.minValue.toInt = -9223372036854775808 := by decide
  have hmax : Int64.maxValue.toInt = 9223372036854775807 := by decide
  have hone : Int64.toInt (-1) = -1 := by decide
  have hzero : Int64.toInt 0 = 0 := by decide
  rw [← Int64.toInt_inj, ← Int64.toInt_inj, hmin, hmax, hone]
  rw [← Int64.toInt_inj.ne, hzero] at hb
  have := Int64.le_toInt a
  have := Int64.toInt_lt a
  generalize a.toInt = x at *
  generalize b.toInt = y at *
  constructor
  · intro h
    have hnat : (x.tdiv y).natAbs = x.natAbs / y.natAbs := Int.natAbs_tdiv x y
    -- a divisor other than one and minus one halves the quotient at least
    by_cases hy : y.natAbs = 1
    · rcases (by omega : y = 1 ∨ y = -1) with rfl | rfl
      · rw [Int.tdiv_one] at h
        omega
      · rw [Int.tdiv_neg, Int.tdiv_one] at h
        exact ⟨by omega, rfl⟩
    · have : x.natAbs / y.natAbs ≤ x.natAbs / 2 := Nat.div_le_div_left (by omega) (by omega)
      omega
  · rintro ⟨rfl, rfl⟩
    right
    decide

/-- A word with its sign extended is divided as a word. -/
theorem divideWords_eq (a b : Word) :
    divideWords (if a < 0 then -1 else 0) a b =
      if b = 0 ∨ (a = Int64.minValue ∧ b = -1) then none else some (a / b, a % b) := by
  rw [divideWords, dividend_eq]
  by_cases hb : b = 0
  · rw [if_pos (Or.inl hb), if_pos (Or.inl hb)]
  · have hdiv : Int64.ofInt (a.toInt.tdiv b.toInt) = a / b := by
      rw [Int64.ofInt_tdiv (Int64.minValue_le_toInt a) (Int64.toInt_le a)
        (Int64.minValue_le_toInt b) (Int64.toInt_le b), Int64.ofInt_toInt, Int64.ofInt_toInt]
    have hmod : Int64.ofInt (a.toInt.tmod b.toInt) = a % b := by
      rw [← Int64.toInt_mod, Int64.ofInt_toInt]
    simp only [hb, false_or, quotient_fits hb, hdiv, hmod]

/-! ## Operators -/

namespace Emission

section

variable {machine : Machine} (state : MachineState)

/-- A move moves its word, or does nothing. -/
theorem through_moveCode (dest src : Register) :
    machine.through state (moveCode dest src) = .next (state.set dest (state.registers src)) := by
  rw [moveCode]
  split
  · rfl
  · next heq =>
      obtain rfl : dest = src := Decidable.not_not.mp heq
      rw [MachineState.set_self]
      rfl

/-- The code of an operator with one operand leaves its value in `r10`. -/
theorem through_unaryCode (op : UnaryOp) {operand : Register} {a : Word}
    (ha : state.registers operand = a) :
    ∃ after, machine.through state (unaryCode op operand) = .next after ∧
      after.registers .r10 = op.apply a ∧ Untouched state after := by
  subst ha
  cases op with
  | neg =>
      refine ⟨_, Machine.through_append (through_moveCode state .r10 operand) _, ?_, ?_⟩
      · rw [MachineState.set_same, MachineState.set_same]
        rfl
      · exact (((Untouched.refl state).set rfl _).flag _).set rfl _
  | not =>
      refine ⟨_, rfl, MachineState.set_same _ _ _, ?_⟩
      exact ((Untouched.refl state).flag _).set rfl _

/-- A comparison leaves its truth in a register. -/
theorem through_compareCode (condition : Condition) {lhs rhs : Register} {a b : Word}
    (ha : state.registers lhs = a) (hb : state.registers rhs = b) :
    ∃ after, machine.through state (compareCode condition lhs rhs) = .next after ∧
      after.registers .r10 = truth (condition.holds a b) ∧ Untouched state after := by
  subst ha hb
  refine ⟨_, rfl, MachineState.set_same _ _ _, ?_⟩
  exact ((Untouched.refl state).flag _).set rfl _

/-- What the operations on two registers compute. -/
def combined (op : AluOp) (a b : Word) : Word :=
  match op with
  | .sub => a - b
  | .imul => a * b
  | _ => a + b

/-- The arithmetic of two registers. -/
theorem effect_alu {op : AluOp} (hop : op = .add ∨ op = .sub ∨ op = .imul) (dest src : Register) :
    machine.effect state (.alu op (.reg dest) (.reg src)) =
      .next ((state.flag none).set dest
        (combined op (state.registers dest) (state.registers src))) := by
  rcases hop with rfl | rfl | rfl <;> rfl

/-- A sum or product leaves its value in a register. -/
theorem through_combineCode {op : AluOp} (hop : op = .add ∨ op = .sub ∨ op = .imul)
    {lhs rhs : Register} {a b : Word} (ha : state.registers lhs = a)
    (hb : state.registers rhs = b) :
    ∃ after, machine.through state (combineCode op lhs rhs) = .next after ∧
      after.registers .r10 = combined op a b ∧ Untouched state after := by
  subst ha hb
  rw [combineCode]
  split
  -- the result register holds the right operand already, so the operation is turned round
  · next hexchange =>
      obtain ⟨rfl, hne⟩ := hexchange
      split
      · next hsub =>
          subst hsub
          refine ⟨((((state.flag none).set .r10 (-state.registers .r10)).flag none).set .r10
            (-state.registers .r10 + state.registers lhs)), ?_, ?_, ?_⟩
          · have hlhs : ((state.flag none).set .r10 (-state.registers .r10)).registers lhs =
                state.registers lhs := MachineState.set_other _ _ _ (Ne.symm hne)
            rw [← hlhs]
            rfl
          · rw [MachineState.set_same, combined, Int64.add_comm, ← Int64.sub_eq_add_neg]
          · exact (((Untouched.refl state).flag _).set rfl _).flag _ |>.set rfl _
      · next hother =>
          refine ⟨_, Machine.through_cons (effect_alu state hop _ _) [], ?_,
            ((Untouched.refl state).flag _).set rfl _⟩
          rw [MachineState.set_same]
          rcases hop with rfl | rfl | rfl
          · exact Int64.add_comm _ _
          · exact absurd rfl hother
          · exact Int64.mul_comm _ _
  · next hplain =>
      have hmove := @through_moveCode machine state .r10 lhs
      refine ⟨_, (Machine.through_append hmove _).trans
        (Machine.through_cons (effect_alu _ hop _ _) []), ?_,
          (((Untouched.refl state).set rfl _).flag _).set rfl _⟩
      rw [MachineState.set_same, MachineState.set_same]
      by_cases hrhs : rhs = .r10
      · obtain rfl : lhs = .r10 :=
          Decidable.byContradiction fun hne => hplain ⟨hrhs.symm, fun heq => hne heq.symm⟩
        rw [hrhs, MachineState.set_same]
      · rw [MachineState.set_other _ _ _ hrhs]

/-- The code of a division divides, or traps. -/
theorem through_divideCode {result lhs rhs : Register} {a b : Word}
    (ha : state.registers lhs = a) (hb : state.registers rhs = b)
    (hrhs : rhs ≠ .rax ∧ rhs ≠ .rdx) (hresult : result = .rax ∨ result = .rdx) :
    if b = 0 ∨ (a = Int64.minValue ∧ b = -1) then
      machine.through state (divideCode result lhs rhs) = .ended (state.stop (.aborted .trap))
    else ∃ after, machine.through state (divideCode result lhs rhs) = .next after ∧
      after.registers .r10 = (if result = .rax then a / b else a % b) ∧ Untouched state after := by
  subst ha hb
  -- the dividend is extended into two registers, and the divisor is in neither of them
  let extended := (state.set .rax (state.registers lhs)).set .rdx
    (if state.registers lhs < 0 then -1 else 0)
  have hright : extended.registers rhs = state.registers rhs := by
    rw [MachineState.set_other _ _ _ hrhs.2, MachineState.set_other _ _ _ hrhs.1]
  have huntouched : Untouched state extended := ((Untouched.refl state).set rfl _).set rfl _
  have hthrough : machine.through state (divideCode result lhs rhs) =
      machine.through extended [.idiv rhs, .mov (.reg .r10) (.reg result)] := rfl
  have hdivide : divideWords (extended.registers .rdx) (extended.registers .rax)
      (extended.registers rhs) =
        if state.registers rhs = 0 ∨ (state.registers lhs = Int64.minValue ∧
          state.registers rhs = -1) then none
        else some (state.registers lhs / state.registers rhs,
          state.registers lhs % state.registers rhs) := by
    rw [hright]
    exact divideWords_eq _ _
  rw [hthrough]
  split
  · next htraps =>
      rw [if_pos htraps] at hdivide
      rw [Machine.through, Machine.effect, hdivide]
      exact congrArg Effect.ended (huntouched.stop _)
  · next hdivides =>
      rw [if_neg hdivides] at hdivide
      refine ⟨_, Machine.through_cons (by rw [Machine.effect, hdivide]) _, ?_,
        (((huntouched.flag _).set rfl _).set rfl _).set rfl _⟩
      rw [MachineState.set_same]
      rcases hresult with rfl | rfl
      · rfl
      · rfl

/-- **THE CODE OF AN OPERATOR** leaves its value in `r10`, or traps. -/
theorem through_binaryCode (op : BinaryOp) {lhs rhs : Register} {a b : Word}
    (ha : state.registers lhs = a) (hb : state.registers rhs = b)
    (hrhs : rhs ≠ .rax ∧ rhs ≠ .rdx) :
    match op.apply a b with
    | some word => ∃ after, machine.through state (binaryCode op lhs rhs) = .next after ∧
        after.registers .r10 = word ∧ Untouched state after
    | none => machine.through state (binaryCode op lhs rhs) =
        .ended (state.stop (.aborted .trap)) := by
  cases op with
  | add => exact through_combineCode state (Or.inl rfl) ha hb
  | sub => exact through_combineCode state (Or.inr (Or.inl rfl)) ha hb
  | mul => exact through_combineCode state (Or.inr (Or.inr rfl)) ha hb
  | div =>
      have h := @through_divideCode machine state .rax lhs rhs a b ha hb hrhs (Or.inl rfl)
      by_cases htraps : b = 0 ∨ (a = Int64.minValue ∧ b = -1)
      · simp only [BinaryOp.apply, if_pos htraps] at h ⊢
        exact h
      · simp only [BinaryOp.apply, if_neg htraps] at h ⊢
        exact h
  | mod =>
      have h := @through_divideCode machine state .rdx lhs rhs a b ha hb hrhs (Or.inr rfl)
      by_cases htraps : b = 0 ∨ (a = Int64.minValue ∧ b = -1)
      · simp only [BinaryOp.apply, if_pos htraps] at h ⊢
        exact h
      · simp only [BinaryOp.apply, if_neg htraps] at h ⊢
        exact h
  | eq => exact through_compareCode state .e ha hb
  | ne => exact through_compareCode state .ne ha hb
  | lt => exact through_compareCode state .l ha hb
  | le => exact through_compareCode state .le ha hb
  | gt => exact through_compareCode state .g ha hb
  | ge => exact through_compareCode state .ge ha hb

end

/-! ## Reads -/

section

variable {context : Context} {session : Session} {machine : Machine} {state : MachineState}
  {access : Access} {word : Word}

/-- What an access reads is a word, wherever it finds it. -/
structure Supplies (context : Context) (session : Session) (machine : Machine)
    (state : MachineState) (access : Access) (word : Word) : Prop where
  register : ∀ {register : Register}, context.body.bindings.get? access = some register →
    register.isAllocatable = true ∧ state.registers register = word
  operand : ∀ {operand : Operand}, context.body.bindings.get? access = none →
    Places context session access operand → machine.operand state operand = word
  literal : ∀ {symbol : Symbol} {text label : String},
    context.body.locations[access.loc.index]? = some (.literal symbol) →
    context.symbols.text symbol = .ok text → session.label? text = some label →
    machine.address label = word

/-- A fetch brings the word into its register. -/
theorem Supplies.fetched {register : Register} {instruction : Instruction}
    (h : Supplies context session machine state access word)
    (hfetches : Fetches context session access register instruction) :
    machine.effect state instruction = .next (state.set register word) := by
  cases hfetches with
  | stored hunbound hplaces =>
      rw [← h.operand hunbound hplaces]
      rfl
  | literal hunbound hlocation htext hlabel =>
      rw [← h.literal hlocation htext hlabel]
      rfl

/-- A register that is taken is a scratch register, and it is not free any more. -/
theorem take_cases {pool pool' : ScratchPool} {register : Register}
    (h : pool.take = some (register, pool')) :
    (register = .r10 ∧ pool.firstFree = true ∧ pool'.firstFree = false) ∨
      (register = .r11 ∧ pool.firstFree = false) := by
  rw [ScratchPool.take] at h
  split at h
  · next hfirst =>
      cases h
      exact Or.inl ⟨rfl, hfirst, rfl⟩
  · next hfirst =>
      split at h
      · cases h
        exact Or.inr ⟨rfl, Bool.eq_false_iff.mpr hfirst⟩
      · cases h

/-- Where a read leaves its word. -/
theorem Reads.cases {pool pool' : ScratchPool} {register : Register} {code : List Instruction}
    (h : Reads context session access pool register pool' code) :
    (context.body.bindings.get? access = some register ∧ pool' = pool ∧ code = []) ∨
      (register = .r10 ∧ pool.firstFree = true ∧ pool'.firstFree = false) ∨
      (register = .r11 ∧ pool.firstFree = false) := by
  cases h with
  | bound hbound => exact Or.inl ⟨hbound, rfl, rfl⟩
  | fetched htake hfetches => exact Or.inr (take_cases htake)

/-- The code of a read has the word in a register. -/
theorem Reads.through {pool pool' : ScratchPool} {register : Register} {code : List Instruction}
    (h : Reads context session access pool register pool' code)
    (hword : Supplies context session machine state access word) :
    ∃ after, machine.through state code = .next after ∧ after.registers register = word ∧
      Untouched state after ∧ (code = [] ∧ after = state ∨ after = state.set register word) := by
  cases h with
  | bound hbound =>
      exact ⟨state, rfl, (hword.register hbound).2, Untouched.refl state, Or.inl ⟨rfl, rfl⟩⟩
  | fetched htake hfetches =>
      refine ⟨state.set register word, Machine.through_cons (hword.fetched hfetches) [],
        MachineState.set_same _ _ _, (Untouched.refl state).set ?_ word, Or.inr rfl⟩
      rcases take_cases htake with ⟨rfl, -⟩ | ⟨rfl, -⟩ <;> rfl

/-- A register with a word that was read is none of those that divisions use. -/
theorem Reads.not_divides {pool pool' : ScratchPool} {register : Register}
    {code : List Instruction} (h : Reads context session access pool register pool' code)
    (hword : Supplies context session machine state access word) :
    register ≠ .rax ∧ register ≠ .rdx := by
  rcases h.cases with ⟨hbound, -⟩ | ⟨rfl, -⟩ | ⟨rfl, -⟩
  · have hallocatable := (hword.register hbound).1
    constructor
    · rintro rfl
      cases hallocatable
    · rintro rfl
      cases hallocatable
  · decide
  · decide

/-- What is supplied depends on the registers that can be bound, the slots and the
    fields only. -/
theorem Supplies.mono {after : MachineState}
    (h : Supplies context session machine state access word)
    (hregisters : ∀ {register : Register}, register.isAllocatable = true →
      after.registers register = state.registers register)
    (hslots : ∀ {loc : Loc} {offset : Int}, context.frame.slot? loc = some offset →
      after.stack (shifted (after.registers .rbp) offset) =
        state.stack (shifted (state.registers .rbp) offset))
    (hglobals : after.globals = state.globals) :
    Supplies context session machine after access word where
  register hbound := by
    obtain ⟨hallocatable, hword⟩ := h.register hbound
    exact ⟨hallocatable, (hregisters hallocatable).trans hword⟩
  operand {operand} hunbound hplaces := by
    refine Eq.trans ?_ (h.operand hunbound hplaces)
    cases hplaces with
    | register hbound => cases hunbound.symm.trans hbound
    | slot _ _ hslot => exact hslots hslot
    | field _ _ _ _ => exact congrFun hglobals _
    | constant _ _ => rfl
  literal := h.literal

/-- What is supplied is so still when nothing was touched. -/
theorem Supplies.untouched {after : MachineState}
    (h : Supplies context session machine state access word) (huntouched : Untouched state after) :
    Supplies context session machine after access word := by
  refine h.mono (fun h => huntouched.registers (Register.not_isOwn h)) (fun _ => ?_)
    huntouched.globals
  rw [huntouched.stack, huntouched.registers rfl]

/-- Two reads have both words in registers. -/
theorem Reads.through_both {first second : Access} {a b : Word} {pool pool' : ScratchPool}
    {left right : Register} {code code' : List Instruction}
    (hleft : Reads context session first {} left pool code)
    (hright : Reads context session second pool right pool' code')
    (ha : Supplies context session machine state first a)
    (hb : Supplies context session machine state second b) :
    ∃ after, machine.through state (code ++ code') = .next after ∧ after.registers left = a ∧
      after.registers right = b ∧ Untouched state after := by
  obtain ⟨middle, hfirst, hleftWord, huntouched, -⟩ := hleft.through ha
  obtain ⟨after, hsecond, hrightWord, huntouched', hafter⟩ :=
    hright.through (hb.untouched huntouched)
  refine ⟨after, (Machine.through_append hfirst _).trans hsecond, ?_, hrightWord,
    huntouched.trans huntouched'⟩
  -- the second read does not take the register of the first one
  have hdiffers : code' = [] ∨ left ≠ right := by
    have hbound : context.body.bindings.get? first = some left → left ≠ .r10 ∧ left ≠ .r11 := by
      intro hbound
      have hallocatable := (ha.register hbound).1
      constructor
      · rintro rfl
        cases hallocatable
      · rintro rfl
        cases hallocatable
    rcases hright.cases with ⟨-, -, hcode⟩ | ⟨rfl, hfree, -⟩ | ⟨rfl, hfree⟩
    -- a bound register is no scratch register, and a scratch register is not taken twice
    · exact Or.inl hcode
    · rcases hleft.cases with ⟨hfirst, -⟩ | ⟨rfl, -, htaken⟩ | ⟨-, hnone⟩
      · exact Or.inr (hbound hfirst).1
      · cases htaken.symm.trans hfree
      · cases hnone
    · rcases hleft.cases with ⟨hfirst, -⟩ | ⟨rfl, -, -⟩ | ⟨-, hnone⟩
      · exact Or.inr (hbound hfirst).2
      · exact Or.inr (by decide)
      · cases hnone
  rcases hdiffers with rfl | hne
  · cases hsecond
    exact hleftWord
  · rcases hafter with ⟨-, rfl⟩ | rfl
    · exact hleftWord
    · rw [MachineState.set_other _ _ _ hne]
      exact hleftWord

end

end Emission

end DecafBackend
