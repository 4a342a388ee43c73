import Mathlib.Data.List.Induction
import DecafBackend.Proofs.FrameLayout
import DecafBackend.Proofs.RegularBodies
import DecafBackend.Proofs.StackPaths

/-! # Stack discipline

    Between statements the stack pointer is where the prologue left it: below the
    frame pointer, the slots and the registers that the method preserves for its
    caller.  Within the code of a statement it is lower by what has been pushed, and
    nothing that lies above it is written except slots.

    * `Disciplined` — what instructions have to find
    * `Secured` — what the caller relies on, with the depth of the stack
    * `Secured.harmless`, `Secured.pushed`, `Secured.popped`, `Secured.adjusted`, `Secured.called` —
      single instructions
    * `CallCode.passes`, `ValueCode.passes`, `CommandCode.passes` — the code of calls, values
      and statements -/

namespace DecafBackend

namespace Frame

/-- An offset is that of a slot: of an argument that came in a register, or of a
    location. -/
def HasSlot (frame : Frame) (offset : Int) : Prop :=
  offset ∈ frame.params ∨ ∃ loc, frame.slot? loc = some offset

/-- The slots of a laid frame lie within it. -/
theorem Laid.hasSlot {frame : Frame} {count : Nat} (h : frame.Laid count) {offset : Int}
    (hslot : frame.HasSlot offset) : -(frame.size : Int) ≤ offset ∧ offset ≤ -8 := by
  have hleast := h.least
  rcases hslot with hparam | ⟨loc, hloc⟩
  · rw [h.params] at hparam
    obtain ⟨position, hposition, rfl⟩ := List.mem_map.mp hparam
    have hlt := List.mem_range.mp hposition
    omega
  · have hslots := h.slots hloc
    omega

end Frame

/-- What an instruction has to find on the way through a method with slots in a
    frame, which preserves some registers. -/
def Disciplined (frame : Frame) (preserved : List Register) (entry : StackState) :
    Instruction → StackState → Prop
  -- the stack is aligned at calls
  | .call _, state => state.rsp % 16 = 0
  -- what is pushed or popped is in no slot
  | .push _, state =>
    ∀ offset, frame.HasSlot offset → Apart (state.rsp - 8) (entry.rsp - 8 + offset)
  | .pop _, state => ∀ offset, frame.HasSlot offset → Apart state.rsp (entry.rsp - 8 + offset)
  | .alu .cmp _ _, _ | .alu .test _ _, _ => True
  -- the stack pointer is moved to below the slots, and from below them unless that
  -- makes the frame
  | .alu op (.reg .rsp) src, state => ∀ next, Changes (.alu op (.reg .rsp) src) state next →
    ∀ offset, frame.HasSlot offset → next.rsp ≤ entry.rsp - 8 + offset ∧
      (state.rsp ≤ entry.rsp - 8 + offset ∨ state.rsp = entry.rsp - 8)
  -- or to where the frame starts
  | .mov (.reg .rsp) src, state =>
    ∀ next, Changes (.mov (.reg .rsp) src) state next → next.rsp = entry.rsp - 8
  -- the caller finds its pointers and the registers that are preserved for it
  | .ret, state => state.rsp = entry.rsp ∧ state.rbp = entry.rbp ∧
    ∀ register ∈ preserved, state.registers register = entry.registers register
  | _, _ => True

/-! ## What the caller relies on -/

/-- The frame pointer of the caller and some of its registers lie on the stack, and
    behind them some bytes more. -/
structure Secured (size : Int) (entry : StackState) (kept : List Register) (depth : Int)
    (state : StackState) : Prop where
  rsp : state.rsp = entry.rsp - (8 + size + 8 * kept.length + depth)
  rbp : state.rbp = entry.rsp - 8
  caller : state.stack (entry.rsp - 8) = entry.rbp
  saved : ∀ (position : Nat) (register : Register), kept[position]? = some register →
    state.stack (entry.rsp - (8 + size + 8 * (position + 1))) = entry.registers register

/-- How the frame of a method lies on the stack. -/
structure Roomy (frame : Frame) (size : Int) (preserved : List Register) : Prop where
  slots : ∀ {offset : Int}, frame.HasSlot offset → -size ≤ offset ∧ offset ≤ -8
  small : 0 ≤ size ∧ size ≤ 2147483647
  aligned : (size + 8 * preserved.length) % 16 = 0
  preserved : ∀ register ∈ preserved, register ≠ .rsp ∧ register ≠ .rbp

/-- A place that may be written without harm to the stack. -/
def Operand.Safe (frame : Frame) : Operand → Prop
  | .reg register => register ≠ .rsp ∧ register ≠ .rbp
  | .frame offset => frame.HasSlot offset
  | .imm _ | .data _ => True

/-- An instruction that leaves the depth of the stack as it is, and control too. -/
def Instruction.Harmless (frame : Frame) : Instruction → Prop
  | .alu .cmp _ _ | .alu .test _ _ => True
  | .mov dest _ | .alu _ dest _ => dest.Safe frame
  | .lea register _ | .neg register | .set _ register => register ≠ .rsp ∧ register ≠ .rbp
  | .cqo | .idiv _ | .label _ | .comment _ => True
  | .push _ | .pop _ | .jmp _ | .jcc _ _ | .call _ | .ret => False

/-- Code that consists of such instructions. -/
def HarmlessCode (frame : Frame) (code : List Instruction) : Prop :=
  ∀ instruction ∈ code, instruction.Harmless frame

section

variable {frame : Frame}

@[simp] theorem harmlessCode_nil : HarmlessCode frame [] := List.forall_mem_nil _

@[simp] theorem harmlessCode_cons {instruction : Instruction} {code : List Instruction} :
    HarmlessCode frame (instruction :: code) ↔
      instruction.Harmless frame ∧ HarmlessCode frame code := List.forall_mem_cons

@[simp] theorem harmlessCode_append {first second : List Instruction} :
    HarmlessCode frame (first ++ second) ↔ HarmlessCode frame first ∧ HarmlessCode frame second :=
  List.forall_mem_append

end

section

variable {frame : Frame} {size : Int} {preserved kept : List Register}
  {entry state next : StackState}
  {depth : Int} {level : StackState → Prop}

/-- Nothing is asked of an instruction that leaves the stack pointer alone. -/
theorem Instruction.Harmless.disciplined {instruction : Instruction}
    (h : instruction.Harmless frame) : Disciplined frame preserved entry instruction state := by
  cases instruction with
  | alu op dest src =>
      cases op with
      | cmp | test => trivial
      | add | sub | imul | xor =>
          cases dest with
          | reg register =>
              have hrsp := h.1
              cases register <;> trivial
          | imm | frame | data => trivial
  | mov dest src =>
      cases dest with
      | reg register =>
          have hrsp := h.1
          cases register <;> trivial
      | imm | frame | data => trivial
  | label | lea | neg | cqo | idiv | set | jmp | jcc | comment => trivial
  | push | pop | call | ret => exact h.elim

/-- A state in which everything that is held is as before. -/
theorem Secured.of_same {depth' : Int} (h : Secured size entry kept depth state)
    (hrsp : next.rsp + depth' = state.rsp + depth) (hrbp : next.rbp = state.rbp)
    (hstack : ∀ address, address = entry.rsp - 8 ∨
      state.rsp + depth ≤ address ∧ address + 8 ≤ entry.rsp - (8 + size) →
        next.stack address = state.stack address) : Secured size entry kept depth' next := by
  have hpointer := h.rsp
  refine ⟨by omega, hrbp.trans h.rbp, (hstack _ (Or.inl rfl)).trans h.caller, ?_⟩
  intro position register hregister
  have hlt := (List.getElem?_eq_some_iff.mp hregister).1
  exact (hstack _ (Or.inr (by omega))).trans (h.saved position register hregister)

/-- A register that is neither of the pointers may hold anything. -/
theorem Secured.set (h : Secured size entry kept depth state) {register : Register}
    (hregister : register ≠ .rsp ∧ register ≠ .rbp) (word : Int) :
    Secured size entry kept depth (state.set register word) :=
  h.of_same (by rw [StackState.rsp, state.set_other word hregister.1.symm])
    (state.set_other word hregister.2.symm) fun _ _ => rfl

variable (room : Roomy frame size preserved)
include room

/-- So may a slot. -/
theorem Secured.assigned (h : Secured size entry kept depth state) {dest : Operand}
    (hdest : dest.Safe frame) {word : Int} (hassigns : state.Assigns word next dest) :
    Secured size entry kept depth next := by
  cases dest with
  | reg register =>
      cases hassigns
      exact h.set hdest word
  | frame offset =>
      obtain ⟨hlow, hhigh⟩ := room.slots hdest
      refine h.of_same ?_ ?_ fun address haddress => hassigns.other address ?_
      · rw [StackState.rsp, hassigns.registers]
      · rw [StackState.rbp, hassigns.registers]
      · rw [h.rbp, Apart]
        omega
  | imm | data =>
      cases hassigns
      exact h

/-- **HARMLESS INSTRUCTIONS** keep everything as it is. -/
theorem Secured.harmless {instruction : Instruction} (h : Secured size entry kept depth state)
    (hharmless : instruction.Harmless frame) (hchanges : Changes instruction state next) :
    Secured size entry kept depth next := by
  -- neither pointer is written, and of the stack only the slots of the frame
  cases instruction with
  | label | comment =>
      cases hchanges
      exact h
  | mov dest src =>
      obtain ⟨word, -, hassigns⟩ := hchanges
      exact h.assigned room hharmless hassigns
  | lea | neg | set =>
      obtain ⟨word, rfl⟩ := hchanges
      exact h.set hharmless word
  | cqo =>
      obtain ⟨word, rfl⟩ := hchanges
      exact h.set (by decide) word
  | idiv =>
      obtain ⟨quotient, remainder, rfl⟩ := hchanges
      exact (h.set (by decide) quotient).set (by decide) remainder
  | alu op dest src =>
      cases op with
      | cmp | test =>
          cases hchanges
          exact h
      | add | sub | imul | xor =>
          have hassigns : ∃ word, state.Assigns word next dest := by
            -- an operation on the stack pointer itself is not harmless
            cases dest with
            | reg register =>
                have hrsp := hharmless.1
                cases register <;> first | exact hchanges | exact absurd rfl hrsp
            | imm | frame | data => exact hchanges
          obtain ⟨word, hassigns⟩ := hassigns
          exact h.assigned room hharmless hassigns
  | push | pop | jmp | jcc | call | ret => exact hharmless.elim

/-- Code of harmless instructions only keeps everything as it is. -/
theorem Secured.through_harmless {code : List Instruction} (h : Secured size entry kept depth state)
    (hharmless : HarmlessCode frame code) :
    Through (Disciplined frame preserved entry) level
      (Secured size entry kept depth) code state := by
  induction code generalizing state with
  | nil => exact h
  | cons instruction code ih =>
      obtain ⟨hfirst, hrest⟩ := harmlessCode_cons.mp hharmless
      refine ⟨hfirst.disciplined, fun hjumps => ?_, fun next hchanges => ?_⟩
      · cases instruction with
        | jmp | jcc => exact hfirst.elim
        | label | mov | lea | alu | neg | cqo | idiv | set | push | pop | call | ret | comment =>
            exact absurd rfl hjumps
      · exact ih (h.harmless room hfirst hchanges) hrest

/-! ## Pushing and popping -/

/-- **A PUSH** goes below everything that is held. -/
theorem Secured.pushed (h : Secured size entry kept depth state) (hdepth : 0 ≤ depth)
    (operand : Operand) :
    Through (Disciplined frame preserved entry) level (Secured size entry kept (depth + 8))
      [.push operand] state := by
  have hpointer := h.rsp
  refine .one (fun offset hslot => ?_) rfl fun next hchanges => ?_
  · have hlow := (room.slots hslot).1
    rw [Apart]
    omega
  · obtain ⟨word, -, hstores⟩ := hchanges
    have hrsp : next.rsp = state.rsp - 8 := by
      rw [StackState.rsp, hstores.registers, StackState.set_same]
    have hsize := room.small.1
    refine h.of_same (by omega) ?_ fun address haddress => hstores.other address ?_
    · rw [StackState.rbp, hstores.registers, StackState.set_other _ _ (by decide)]
    · rw [Apart]
      omega

/-- Each register pushed takes a word more. -/
theorem Secured.pushedAll {total : Int} {registers : List Register}
    (h : Secured size entry kept depth state) (hdepth : 0 ≤ depth)
    (htotal : total = depth + 8 * registers.length) :
    Through (Disciplined frame preserved entry) level (Secured size entry kept total)
      (Emission.pushAll registers) state := by
  induction registers generalizing state depth with
  | nil =>
      obtain rfl : total = depth := by rw [htotal, List.length_nil]; omega
      exact h
  | cons register registers ih =>
      rw [List.length_cons] at htotal
      exact (h.pushed room hdepth _).append fun next hnext => ih hnext (by omega) (by omega)

/-- **A POP** takes off what is below everything that is held. -/
theorem Secured.popped (h : Secured size entry kept (depth + 8) state) (hdepth : 0 ≤ depth)
    {register : Register} (hregister : register ≠ .rsp ∧ register ≠ .rbp) :
    Through (Disciplined frame preserved entry) level (Secured size entry kept depth)
      [.pop register] state := by
  have hpointer := h.rsp
  refine .one (fun offset hslot => ?_) rfl fun next hchanges => ?_
  · have hlow := (room.slots hslot).1
    rw [Apart]
    omega
  · cases hchanges
    have hmoved : Secured size entry kept depth (state.set .rsp (state.rsp + 8)) := by
      refine h.of_same ?_ (state.set_other _ (by decide)) fun _ _ => rfl
      rw [StackState.rsp, StackState.set_same]
      omega
    exact hmoved.set hregister _

/-- Registers are popped, whatever values they get. -/
theorem Secured.poppedAll {total : Int} {registers : List Register}
    (h : Secured size entry kept total state) (hdepth : 0 ≤ depth)
    (htotal : total = depth + 8 * registers.length)
    (hregisters : ∀ register ∈ registers, register ≠ .rsp ∧ register ≠ .rbp) :
    Through (Disciplined frame preserved entry) level (Secured size entry kept depth)
      (Emission.popAll registers) state := by
  rw [Emission.popAll]
  rw [← List.length_reverse] at htotal
  replace hregisters : ∀ register ∈ registers.reverse, register ≠ .rsp ∧ register ≠ .rbp :=
    fun register hmem => hregisters register (List.mem_reverse.mp hmem)
  generalize registers.reverse = popped at htotal hregisters
  induction popped generalizing state total with
  | nil =>
      obtain rfl : total = depth := by rw [htotal, List.length_nil]; omega
      exact h
  | cons register popped ih =>
      obtain ⟨hfirst, hrest⟩ := List.forall_mem_cons.mp hregisters
      rw [List.length_cons] at htotal
      obtain rfl : total = (depth + 8 * popped.length) + 8 := by omega
      exact (h.popped room (by omega) hfirst).append fun next hnext => ih hnext rfl hrest

/-- **THE STACK POINTER IS MOVED** below everything that is held. -/
theorem Secured.adjusted {op : AluOp} {value : Int64} {before distance : Int}
    (h : Secured size entry kept before state) (hbefore : 0 ≤ before) (hdepth : 0 ≤ depth)
    (hdistance : before = depth + distance)
    (hadjusts : op.adjusts (.reg .rsp) (.imm value) = some distance) :
    Through (Disciplined frame preserved entry) level (Secured size entry kept depth)
      [.alu op (.reg .rsp) (.imm value)] state := by
  -- the instruction has one effect: the pointer moves by the distance
  have hpointer := h.rsp
  have hnext : ∀ next, Changes (.alu op (.reg .rsp) (.imm value)) state next →
      next = state.set .rsp (state.rsp + distance) := by
    intro next hchanges
    cases op with
    | add | sub =>
        simp only [Changes, hadjusts] at hchanges
        exact hchanges
    | imul | cmp | xor | test => cases hadjusts
  have hmoved : (state.set .rsp (state.rsp + distance)).rsp = state.rsp + distance :=
    state.set_same _ _
  -- no slot of the frame comes to lie below the stack pointer
  have hbelow : ∀ next, Changes (.alu op (.reg .rsp) (.imm value)) state next →
      ∀ offset, frame.HasSlot offset → next.rsp ≤ entry.rsp - 8 + offset ∧
        (state.rsp ≤ entry.rsp - 8 + offset ∨ state.rsp = entry.rsp - 8) := by
    intro next hchanges offset hslot
    have hlow := (room.slots hslot).1
    rw [hnext next hchanges]
    omega
  refine .one ?_ rfl fun next hchanges => ?_
  · cases op with
    | add | sub => exact hbelow
    | imul | cmp | xor | test => cases hadjusts
  · rw [hnext next hchanges]
    exact h.of_same (by omega) (state.set_other _ (by decide)) fun _ _ => rfl

/-- **A CALL** finds the stack aligned and leaves everything as it is. -/
theorem Secured.called (hentry : entry.rsp % 16 = 8) (h : Secured size entry preserved depth state)
    (hdepth : 0 ≤ depth) (heven : depth % 16 = 0) (name : String) :
    Through (Disciplined frame preserved entry) level (Secured size entry preserved depth)
      [.call name] state := by
  have hpointer := h.rsp
  have haligned := room.aligned
  have hsize := room.small.1
  refine .one ?_ rfl fun next hreturns => ?_
  · show state.rsp % 16 = 0
    omega
  · have hrsp : next.rsp = state.rsp := hreturns.registers .rsp rfl
    refine h.of_same (by omega) (hreturns.registers .rbp rfl) fun address haddress => ?_
    exact hreturns.stack address (by omega)

end

/-! ## Entering and leaving -/

/-- The registers that are preserved hold the words of the caller, except those that
    are kept on the stack. -/
def Intact (preserved kept : List Register) (entry state : StackState) : Prop :=
  ∀ register ∈ preserved, register ∈ kept ∨ state.registers register = entry.registers register

section

variable {frame : Frame} {size : Int} {preserved kept : List Register} {entry state : StackState}
  {level : StackState → Prop} {register : Register}

/-- A word behind what is kept is kept too. -/
theorem Secured.extend (h : Secured size entry kept 8 state)
    (hword : state.stack state.rsp = entry.registers register) :
    Secured size entry (kept ++ [register]) 0 state := by
  have hpointer := h.rsp
  refine ⟨?_, h.rbp, h.caller, fun position other hother => ?_⟩
  · rw [List.length_append, List.length_singleton]
    omega
  · rw [List.getElem?_append] at hother
    split at hother
    · exact h.saved position other hother
    · obtain ⟨hlt, heq⟩ := List.getElem?_eq_some_iff.mp hother
      rw [List.length_singleton] at hlt
      obtain rfl : position = kept.length := by omega
      simp only [Nat.sub_self, List.getElem_cons_zero] at heq
      rw [← heq, ← hword]
      congr 1
      omega

/-- The last word that is kept is the top of the stack. -/
theorem Secured.shorten (h : Secured size entry (kept ++ [register]) 0 state) :
    Secured size entry kept (0 + 8) state ∧ state.stack state.rsp = entry.registers register := by
  have hpointer := h.rsp
  rw [List.length_append, List.length_singleton] at hpointer
  refine ⟨⟨by omega, h.rbp, h.caller, fun position other hother => ?_⟩, ?_⟩
  · exact h.saved position other ((List.getElem?_append_left
      (List.getElem?_eq_some_iff.mp hother).1).trans hother)
  · rw [← h.saved kept.length register List.getElem?_concat_length]
    congr 1
    omega

variable (room : Roomy frame size preserved)
include room

/-- **ONE REGISTER** is pushed for the caller. -/
theorem Secured.preserve (h : Secured size entry kept 0 state)
    (hintact : Intact preserved [] entry state) (hregister : register ∈ preserved) :
    Through (Disciplined frame preserved entry) level (fun next =>
      Secured size entry (kept ++ [register]) 0 next ∧ Intact preserved [] entry next)
      [.push (.reg register)] state := by
  have hpushed := @Secured.pushed _ _ _ _ _ _ _ level room h (Int.le_refl 0) (.reg register)
  refine ⟨hpushed.1, hpushed.2.1, fun next hchanges => ?_⟩
  have hsecured := hpushed.2.2 next hchanges
  obtain ⟨word, hword, hstores⟩ := hchanges
  have hkept : ∀ other ∈ preserved, next.registers other = state.registers other := by
    intro other hother
    rw [hstores.registers, state.set_other _ (room.preserved other hother).1]
  refine ⟨hsecured.extend ?_, fun other hother => Or.inr ?_⟩
  · have hrsp : next.rsp = state.rsp - 8 := by
      rw [StackState.rsp, hstores.registers, StackState.set_same]
    rw [hrsp, hstores.same, hword]
    exact (hintact register hregister).resolve_left List.not_mem_nil
  · rw [hkept other hother]
    exact (hintact other hother).resolve_left List.not_mem_nil

/-- The registers of the caller are pushed while they still hold their first values. -/
theorem Secured.preserveAll {registers : List Register} (h : Secured size entry kept 0 state)
    (hintact : Intact preserved [] entry state) (hregisters : ∀ register ∈ registers,
      register ∈ preserved) :
    Through (Disciplined frame preserved entry) level (Secured size entry (kept ++ registers) 0)
      (Emission.pushAll registers) state := by
  induction registers generalizing state kept with
  | nil =>
      rw [List.append_nil]
      exact h
  | cons register registers ih =>
      obtain ⟨hfirst, hrest⟩ := List.forall_mem_cons.mp hregisters
      rw [List.append_cons]
      refine (h.preserve room hintact hfirst).cons fun next hnext => ?_
      exact ih hnext.1 hnext.2 hrest

/-- **ONE REGISTER** is popped for the caller. -/
theorem Secured.restore (h : Secured size entry (kept ++ [register]) 0 state)
    (hintact : Intact preserved (kept ++ [register]) entry state)
    (hregister : register ∈ preserved) :
    Through (Disciplined frame preserved entry) level (fun next =>
      Secured size entry kept 0 next ∧ Intact preserved kept entry next)
      [.pop register] state := by
  obtain ⟨hshort, hword⟩ := h.shorten
  have hpopped := @Secured.popped _ _ _ _ _ _ _ level room hshort (Int.le_refl 0) _
    (room.preserved register hregister)
  refine ⟨hpopped.1, hpopped.2.1, fun next hchanges => ⟨hpopped.2.2 next hchanges, ?_⟩⟩
  cases hchanges
  intro other hother
  by_cases heq : other = register
  · subst heq
    rw [StackState.set_same]
    exact Or.inr hword
  · rw [StackState.set_other _ _ heq, StackState.set_other _ _ (room.preserved other hother).1]
    refine (hintact other hother).imp_left fun hmem => ?_
    exact (List.mem_append.mp hmem).resolve_right fun hlast => heq (List.mem_singleton.mp hlast)

/-- Popping what was preserved gives the registers their first values back. -/
theorem Secured.restoreAll (h : Secured size entry kept 0 state)
    (hintact : Intact preserved kept entry state) (hkept : ∀ register ∈ kept,
      register ∈ preserved) :
    Through (Disciplined frame preserved entry) level (fun next =>
      Secured size entry [] 0 next ∧ Intact preserved [] entry next)
      (Emission.popAll kept) state := by
  -- the last register is popped first
  induction kept using List.reverseRecOn generalizing state with
  | nil => exact ⟨h, hintact⟩
  | append_singleton kept register ih =>
      obtain ⟨hrest, hlast⟩ := List.forall_mem_append.mp hkept
      rw [Emission.popAll, List.reverse_append]
      refine (h.restore room hintact (hlast register List.mem_cons_self)).cons fun next hnext => ?_
      exact ih hnext.1 hnext.2 hrest

/-- **THE CODE THAT LEAVES** a method gives everything back to the caller. -/
theorem Secured.leave {post : StackState → Prop} (h : Secured size entry preserved 0 state) :
    Through (Disciplined frame preserved entry) level post (Emission.popAll preserved ++
      [.mov (.reg .rsp) (.reg .rbp), .pop .rbp, .ret]) state := by
  refine (h.restoreAll room (fun _ hmem => Or.inl hmem) fun _ hmem => hmem).append ?_
  rintro opened ⟨hopened, hintact⟩
  -- the base pointer still points at the pushed base pointer of the caller
  have hmoves : ∀ moved, Changes (.mov (.reg .rsp) (.reg .rbp)) opened moved →
      moved = opened.set .rsp (entry.rsp - 8) := by
    rintro moved ⟨word, hword, rfl⟩
    rw [show word = entry.rsp - 8 from hword.trans hopened.rbp]
  have htop : (opened.set .rsp (entry.rsp - 8)).rsp = entry.rsp - 8 := opened.set_same _ _
  refine ⟨fun moved hmoved => ?_, fun hjumps => absurd rfl hjumps, fun moved hmoved => ?_⟩
  · rw [hmoves moved hmoved, htop]
  rw [hmoves moved hmoved]
  refine ⟨fun offset hslot => ?_, fun hjumps => absurd rfl hjumps, fun popped hpops => ?_⟩
  · have hhigh := (room.slots hslot).2
    rw [Apart]
    omega
  -- behind the pop the stack pointer is that of the entry again
  cases hpops
  rw [htop, StackState.set_stack, hopened.caller]
  refine ⟨⟨?_, StackState.set_same _ _ _, fun register hregister => ?_⟩,
    fun hjumps => absurd rfl hjumps, fun _ hret => hret.elim⟩
  · rw [StackState.rsp, StackState.set_other _ _ (by decide), StackState.set_same]
    omega
  · obtain ⟨hrsp, hrbp⟩ := room.preserved register hregister
    rw [StackState.set_other _ _ hrbp, StackState.set_other _ _ hrsp, StackState.set_other _ _ hrsp]
    exact (hintact register hregister).resolve_left List.not_mem_nil

/-- The frame is made, unless it is empty. -/
theorem Secured.allocate (h : Secured 0 entry [] 0 state)
    (hintact : Intact preserved [] entry state) :
    Through (Disciplined frame preserved entry) level (fun next =>
      Secured size entry [] 0 next ∧ Intact preserved [] entry next)
      (if 0 < size then [.alu .sub (.reg .rsp) (.imm (Int64.ofInt size))] else []) state := by
  obtain ⟨hpositive, hsmall⟩ := room.small
  have hpointer := h.rsp
  rw [List.length_nil] at hpointer
  split
  -- the size is small enough to be a 64-bit operand
  · have hvalue : (Int64.ofInt size).toInt = size := Int64.toInt_ofInt_of_le (by omega) (by omega)
    have hnext : ∀ next, Changes (.alu .sub (.reg .rsp) (.imm (Int64.ofInt size))) state next →
        next = state.set .rsp (state.rsp + -size) := by
      intro next hchanges
      simp only [Changes, AluOp.adjusts, hvalue] at hchanges
      exact hchanges
    have hmoved : (state.set .rsp (state.rsp + -size)).rsp = state.rsp + -size :=
      state.set_same _ _
    refine .one (fun next hchanges offset hslot => ?_) rfl fun next hchanges => ?_
    · have hlow := (room.slots hslot).1
      rw [hnext next hchanges]
      omega
    · rw [hnext next hchanges]
      refine ⟨⟨?_, (state.set_other _ (by decide)).trans h.rbp, h.caller, ?_⟩, ?_⟩
      · rw [List.length_nil]
        omega
      · intro position register hregister
        cases hregister
      · intro register hregister
        rw [StackState.set_other _ _ (room.preserved register hregister).1]
        exact hintact register hregister
  · obtain rfl : size = 0 := by omega
    exact ⟨h, hintact⟩

/-- Arguments that come in registers are written into their slots. -/
theorem Secured.storeParams {params : List (Int × Register)}
    (h : Secured size entry [] 0 state) (hintact : Intact preserved [] entry state)
    (hslots : ∀ param ∈ params, frame.HasSlot param.1) :
    Through (Disciplined frame preserved entry) level (fun next =>
      Secured size entry [] 0 next ∧ Intact preserved [] entry next)
      (params.map fun param => .mov (.frame param.1) (.reg param.2)) state := by
  induction params generalizing state with
  | nil => exact ⟨h, hintact⟩
  | cons param params ih =>
      obtain ⟨hfirst, hrest⟩ := List.forall_mem_cons.mp hslots
      refine ⟨trivial, fun hjumps => absurd rfl hjumps, fun next hchanges => ?_⟩
      obtain ⟨word, -, hstores⟩ := hchanges
      have hsafe : (Operand.frame param.1).Safe frame := hfirst
      refine ih (h.assigned room hsafe hstores) ?_ hrest
      intro register hregister
      rw [hstores.registers]
      exact hintact register hregister

/-- **THE CODE THAT ENTERS** a method makes the frame and keeps what the caller
    relies on. -/
theorem through_enter {params : List (Int × Register)}
    (hslots : ∀ param ∈ params, frame.HasSlot param.1) :
    Through (Disciplined frame preserved entry) level (Secured size entry preserved 0)
      (.push (.reg .rbp) :: .mov (.reg .rbp) (.reg .rsp) ::
        ((if 0 < size then [.alu .sub (.reg .rsp) (.imm (Int64.ofInt size))] else []) ++
        (params.map (fun param => .mov (.frame param.1) (.reg param.2)) ++
          Emission.pushAll preserved))) entry := by
  refine ⟨fun offset hslot => ?_, fun hjumps => absurd rfl hjumps, fun pushed hpushes => ?_⟩
  · have hhigh := (room.slots hslot).2
    rw [Apart]
    omega
  refine ⟨trivial, fun hjumps => absurd rfl hjumps, fun moved hmoves => ?_⟩
  obtain ⟨word, hword, hstores⟩ := hpushes
  obtain ⟨pointer, hpointer, rfl⟩ := hmoves
  -- the base pointer of the caller is pushed first, then the frame is opened
  have htop : pushed.rsp = entry.rsp - 8 := by
    rw [StackState.rsp, hstores.registers, StackState.set_same]
  have hopened : Secured 0 entry [] 0 (pushed.set .rbp pointer) := by
    refine ⟨?_, ?_, hstores.same.trans hword, fun position register hregister => ?_⟩
    · refine ((pushed.set_other _ (by decide)).trans htop).trans ?_
      rw [List.length_nil]
      omega
    · rw [StackState.rbp, StackState.set_same]
      exact hpointer.trans htop
    · cases hregister
  have hintact : Intact preserved [] entry (pushed.set .rbp pointer) := by
    intro register hregister
    obtain ⟨hrsp, hrbp⟩ := room.preserved register hregister
    rw [StackState.set_other _ _ hrbp, hstores.registers, StackState.set_other _ _ hrsp]
    exact Or.inr rfl
  -- the frame, the parameters, and the registers that the caller relies on
  refine (hopened.allocate room hintact).append fun s₁ h₁ => ?_
  refine (h₁.1.storeParams room h₁.2 hslots).append fun s₂ h₂ => ?_
  exact h₂.1.preserveAll room h₂.2 fun register hmem => hmem

end

/-! ## The code of statements -/

/-- What keeps emission away from the stack pointer and the frame pointer. -/
structure Body.Tame (body : Body) : Prop where
  commands : ∀ stmt ∈ body.stmts, ∃ command, body.command? stmt = some command
  bound : ∀ {access : Access} {register : Register},
    body.bindings.get? access = some register → register.isAllocatable = true
  preserved : ∀ register ∈ body.bindings.calleeSaved, register.isAllocatable = true
  saved : ∀ {stmt : Inst} {command : Command}, stmt ∈ body.stmts →
    body.command? stmt = some command → ∀ register ∈ command.saved, register.isAllocatable = true

/-- A register that can be allocated is neither of the two pointers. -/
theorem Register.ne_pointers {register : Register} (h : register.isAllocatable = true) :
    register ≠ .rsp ∧ register ≠ .rbp := by
  constructor
  · rintro rfl
    cases h
  · rintro rfl
    cases h

theorem Register.ne_pointers_of_argument {register : Register} (h : register ∈ Register.arguments) :
    register ≠ .rsp ∧ register ≠ .rbp := by
  revert register
  decide

namespace Emission

section

variable {context : Context} {session : Session} {frame : Frame}

theorem take_scratch {pool pool' : ScratchPool} {register : Register}
    (h : pool.take = some (register, pool')) : register = .r10 ∨ register = .r11 := by
  rw [ScratchPool.take] at h
  split at h
  · cases h
    exact Or.inl rfl
  · split at h
    · cases h
      exact Or.inr rfl
    · cases h

/-- Reading an operand writes at most a scratch register. -/
theorem Reads.harmless {access : Access} {pool pool' : ScratchPool} {register : Register}
    {code : List Instruction} (h : Reads context session access pool register pool' code) :
    HarmlessCode frame code := by
  cases h with
  | bound hbound => exact harmlessCode_nil
  | fetched htake hfetches =>
      have hscratch : register ≠ .rsp ∧ register ≠ .rbp := by
        rcases take_scratch htake with rfl | rfl <;> decide
      cases hfetches <;> exact harmlessCode_cons.mpr ⟨hscratch, harmlessCode_nil⟩

theorem harmless_moveCode (src : Register) : HarmlessCode frame (moveCode .r10 src) := by
  rw [moveCode]
  split <;> simp [Instruction.Harmless, Operand.Safe]

theorem harmless_unaryCode (op : UnaryOp) (operand : Register) :
    HarmlessCode frame (unaryCode op operand) := by
  cases op <;> simp [unaryCode, harmless_moveCode, Instruction.Harmless]

theorem harmless_combineCode (op : AluOp) (lhs rhs : Register) :
    HarmlessCode frame (combineCode op lhs rhs) := by
  have hsafe : ∀ src, (Instruction.alu op (.reg .r10) src).Harmless frame := by
    intro src
    cases op <;> simp [Instruction.Harmless, Operand.Safe]
  rw [combineCode]
  split
  · split
    · simp [Instruction.Harmless, Operand.Safe]
    · exact harmlessCode_cons.mpr ⟨hsafe _, harmlessCode_nil⟩
  · simp [hsafe, harmless_moveCode]

theorem harmless_binaryCode (op : BinaryOp) (lhs rhs : Register) :
    HarmlessCode frame (binaryCode op lhs rhs) := by
  cases op with
  | add | sub | mul => exact harmless_combineCode _ _ _
  | div | mod => simp [binaryCode, divideCode, Instruction.Harmless, Operand.Safe]
  | eq | ne | lt | le | gt | ge => simp [binaryCode, compareCode, Instruction.Harmless]

/-- A place is a register other than the pointers, a slot of the frame, or outside the stack. -/
theorem Places.safe (tame : context.body.Tame) {access : Access} {operand : Operand}
    (h : Places context session access operand) : operand.Safe context.frame := by
  cases h with
  | register hbound => exact Register.ne_pointers (tame.bound hbound)
  | slot _ _ hslot => exact Or.inr ⟨_, hslot⟩
  | field | constant => trivial

theorem Places.harmless_store (tame : context.body.Tame) {access : Access} {operand : Operand}
    (h : Places context session access operand) (register : Register) :
    HarmlessCode context.frame (storeCode operand register) := by
  rw [storeCode]
  split
  · exact harmlessCode_cons.mpr ⟨h.safe tame, harmlessCode_nil⟩
  · exact harmlessCode_nil

end

/-- The number of words on the stack at a call is even. -/
theorem even_words (args : List Loc) (saved : List Register) :
    (saved.length + (isPadded args saved).toNat + (onStack args).length) % 2 = 0 := by
  rw [isPadded]
  rcases Nat.mod_two_eq_zero_or_one (saved.length + (onStack args).length) with hmod | hmod
  · rw [hmod]
    show (saved.length + 0 + (onStack args).length) % 2 = 0
    omega
  · rw [hmod]
    show (saved.length + 1 + (onStack args).length) % 2 = 0
    omega

/-- Code of a method finds what it has to, and leaves some bytes on the stack. -/
abbrev Passes (context : Context) (size : Int) (entry : StackState) (level : StackState → Prop)
    (depth : Int) (code : List Instruction) (state : StackState) : Prop :=
  Through (Disciplined context.frame context.calleeSaved entry) level
    (Secured size entry context.calleeSaved depth) code state

section

variable {context : Context} {session : Session} {size depth : Int} {entry state : StackState}
  {level : StackState → Prop} {inst : Inst}

/-- Code under a condition that changes the depth. -/
theorem passes_ite {c : Prop} [Decidable c] {total : Int} {first : List Instruction}
    (h : Secured size entry context.calleeSaved depth state)
    (htrue : c → Passes context size entry level total first state)
    (hfalse : ¬ c → total = depth) :
    Passes context size entry level total (if c then first else []) state := by
  split
  · next hc => exact htrue hc
  · next hc =>
      rw [hfalse hc]
      exact h

variable (room : Roomy context.frame size context.calleeSaved)
include room

/-- Arguments are pushed one by one. -/
theorem Pushes.passes {args : List Loc} {code : List Instruction} {total : Int}
    (h : Pushes context session inst args code)
    (hstate : Secured size entry context.calleeSaved depth state) (hdepth : 0 ≤ depth)
    (htotal : total = depth + 8 * args.length) :
    Passes context size entry level total code state := by
  induction h generalizing state depth with
  | nil =>
      obtain rfl : total = depth := by rw [htotal, List.length_nil]; omega
      exact hstate
  | cons hreads _ ih =>
      rw [List.length_cons] at htotal
      refine (hstate.through_harmless room hreads.harmless).append fun read hread => ?_
      exact (hread.pushed room hdepth _).cons fun next hnext => ih hnext (by omega) (by omega)

/-- One word more aligns the stack. -/
theorem passes_padding {args : List Loc} {saved : List Register}
    (hstate : Secured size entry context.calleeSaved (8 * saved.length) state) :
    Passes context size entry level (8 * (saved.length + (isPadded args saved).toNat))
      (if isPadded args saved then [.alu .sub (.reg .rsp) (.imm 8)] else []) state := by
  refine passes_ite hstate (fun hpadded => ?_) (fun hplain => ?_)
  · rw [hpadded]
    have hword : ((true.toNat : Nat) : Int) = 1 := rfl
    have height : (8 : Int64).toInt = 8 := by decide
    exact hstate.adjusted room (by omega) (by omega) (by omega) (congrArg (some <| -·) height)
  · rw [Bool.not_eq_true] at hplain
    rw [hplain]
    rfl

/-- The bytes of the arguments on the stack are taken off again. -/
theorem passes_cleanup {args : List Loc} {saved : List Register}
    (hcleanup : cleanup args saved ≤ 9223372036854775807)
    (hstate : Secured size entry context.calleeSaved depth state)
    (hdepth : depth = 8 * saved.length + cleanup args saved) :
    Passes context size entry level (8 * saved.length)
      (if 0 < cleanup args saved then
        [.alu .add (.reg .rsp) (.imm (Int64.ofNat (cleanup args saved)))] else []) state := by
  refine passes_ite hstate (fun hpositive => ?_) (fun hnone => by omega)
  have hvalue : (Int64.ofNat (cleanup args saved)).toInt = cleanup args saved :=
    Int64.toInt_ofNat_of_lt (by omega)
  exact hstate.adjusted room (by omega) (by omega) hdepth (congrArg some hvalue)

/-- **CALLS** are made with the stack aligned, and leave the depth as it was. -/
theorem CallCode.passes (hentry : entry.rsp % 16 = 8) {target : Symbol} {args : List Loc}
    {isExternal : Bool} {saved : List Register} {code : List Instruction}
    (h : CallCode context session inst target args isExternal saved code)
    (hsaved : ∀ register ∈ saved, register.isAllocatable = true)
    (hstate : Secured size entry context.calleeSaved 0 state) :
    Passes context size entry level 0 code state := by
  obtain ⟨-, hstacked, hregistered, hcleanup⟩ := h
  have hfew : (inRegisters args).length ≤ 6 := List.length_take_le _ _
  have hpopped : (Register.arguments.take (inRegisters args).length).length =
      (inRegisters args).length := by
    rw [List.length_take]
    exact Nat.min_eq_left hfew
  -- an odd number of words is padded, so the call finds the stack aligned
  have hwords := even_words args saved
  have hbytes : cleanup args saved = 8 * ((onStack args).length + (isPadded args saved).toNat) := by
    rw [cleanup, Nat.mul_comm]
  -- saved registers, padding, stacked arguments and register arguments, in this order
  refine (hstate.pushedAll room (Int.le_refl 0) (Int.zero_add _).symm).append fun s₁ h₁ => ?_
  refine (passes_padding room h₁).append fun s₂ h₂ => ?_
  refine (hstacked.passes room h₂ (by omega) rfl).append fun s₃ h₃ => ?_
  rw [List.length_reverse] at h₃
  refine (hregistered.passes room h₃ (by omega) rfl).append fun s₄ h₄ => ?_
  have harguments : ∀ register ∈ Register.arguments.take (inRegisters args).length,
      register ≠ .rsp ∧ register ≠ .rbp :=
    fun register hmem => Register.ne_pointers_of_argument (List.mem_of_mem_take hmem)
  refine (h₄.poppedAll room ?_ (by rw [hpopped]) harguments).append fun s₅ h₅ => ?_
  · omega
  refine (h₅.through_harmless room ?_).append fun s₆ h₆ => ?_
  · split <;> simp [Instruction.Harmless, Operand.Safe]
  refine (h₆.called room hentry (by omega) (by omega) _).cons fun s₇ h₇ => ?_
  -- behind the call everything is taken back in the opposite order
  refine (passes_cleanup room hcleanup h₇ (by omega)).append fun s₈ h₈ => ?_
  exact h₈.poppedAll room (Int.le_refl 0) (Int.zero_add _).symm fun register hmem =>
      Register.ne_pointers (hsaved register hmem)

section

variable (hentry : entry.rsp % 16 = 8)
include hentry

/-- Computing a value leaves the stack at the depth that it finds. -/
theorem ValueCode.passes {value : Value} {dest : Loc} {register : Register}
    {code : List Instruction} (h : ValueCode context session value register code)
    (hsaved : ∀ register ∈ (Command.save value dest).saved, register.isAllocatable = true)
    (hstate : Secured size entry context.calleeSaved 0 state) :
    Passes context size entry level 0 code state := by
  cases h with
  | load hreads => exact hstate.through_harmless room hreads.harmless
  | param => exact hstate.through_harmless room (by simp [Instruction.Harmless, Operand.Safe])
  | unary hreads =>
      refine (hstate.through_harmless room hreads.harmless).append fun s₁ h₁ => ?_
      exact h₁.through_harmless room (harmless_unaryCode _ _)
  | binary hleft hright =>
      refine (hstate.through_harmless room hleft.harmless).append fun s₁ h₁ => ?_
      refine (h₁.through_harmless room hright.harmless).append fun s₂ h₂ => ?_
      exact h₂.through_harmless room (harmless_binaryCode _ _ _)
  | call hcall =>
      refine (hcall.passes room hentry hsaved hstate).append fun s₁ h₁ => ?_
      exact h₁.through_harmless room (by simp [Instruction.Harmless, Operand.Safe])

variable (tame : context.body.Tame)
include tame

/-- **STATEMENTS** leave the stack at the depth that they find. -/
theorem CommandCode.passes {stmt : Inst} {command : Command} {code : List Instruction}
    (h : CommandCode context session stmt command code)
    (hsaved : ∀ register ∈ command.saved, register.isAllocatable = true)
    (hstate : Secured size entry context.calleeSaved 0 state) :
    Passes context size entry (Secured size entry context.calleeSaved 0) 0 code state := by
  -- calls move the stack pointer and take it back, returns leave; the rest is harmless
  cases h with
  | save hvalue hplaces =>
      refine (hvalue.passes room hentry hsaved hstate).append fun s₁ h₁ => ?_
      exact h₁.through_harmless room (hplaces.harmless_store tame _)
  | call hcall => exact hcall.passes room hentry hsaved hstate
  | use => exact hstate
  | label => exact hstate.through_harmless room (by simp [Instruction.Harmless])
  | jump => exact ⟨trivial, fun _ => hstate, fun _ hnever => hnever.elim⟩
  | branch hreads =>
      refine (hstate.through_harmless room hreads.harmless).append fun s₁ h₁ => ?_
      -- the comparison changes nothing, and the branch has both outcomes
      refine ⟨trivial, fun hjumps => absurd rfl hjumps, fun s₂ hcompares => ?_⟩
      cases hcompares
      refine ⟨trivial, fun _ => h₁, fun s₃ hfalls => ?_⟩
      cases hfalls
      exact h₁
  | ret =>
      refine Through.cons (hstate.through_harmless room ?_) fun s₁ h₁ => h₁.leave room
      simp [Instruction.Harmless, Operand.Safe]
  | retValue hreads =>
      refine (hstate.through_harmless room hreads.harmless).append fun s₁ h₁ => ?_
      refine Through.cons (h₁.through_harmless room ?_) fun s₂ h₂ => h₂.leave room
      simp [Instruction.Harmless, Operand.Safe]
  | exit code =>
      have hharmless : HarmlessCode context.frame [.alu .xor (.reg .rax) (.reg .rax),
          .mov (.reg .rdi) (.imm (Int64.ofInt code.toInt))] := by
        simp [Instruction.Harmless, Operand.Safe]
      refine (hstate.through_harmless room hharmless).append fun s₁ h₁ => ?_
      exact h₁.called room hentry (Int.le_refl 0) rfl _

end

end

end Emission

end DecafBackend
