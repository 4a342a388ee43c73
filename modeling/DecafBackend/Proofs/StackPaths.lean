import Mathlib.Logic.Relation
import DecafBackend.Machine.Frame
import DecafBackend.Proofs.EmittedRuns

/-! # Paths through machine code

    What instructions do to the stack along every path that control could take.  A
    conditional jump may go both ways, a callee may leave anything in the registers
    that it need not preserve and below the stack pointer, and arithmetic may give
    any word unless it moves the stack pointer.  A word takes eight bytes, so a write
    spoils whatever overlaps it.  Addresses are integers: the stack has no bottom, and
    calls may push as many arguments as they like.

    * `StackState`, `Changes` — what single instructions do
    * `Moves`, `exists_changes` — paths, and that they do not get stuck
    * `Through` — what holds whenever instructions are run one after another
    * `Located`, `Located.moves` — where a path is in code made of parts
    * `path_asks`, `path_level` — what holds along every path -/

namespace DecafBackend

/-! ## States -/

/-- The registers, and the words of the stack by address. -/
structure StackState where
  registers : Register → Int
  stack : Int → Int

/-- Two words do not overlap. -/
def Apart (address other : Int) : Prop := address + 8 ≤ other ∨ other + 8 ≤ address

namespace StackState

/-- The stack pointer. -/
abbrev rsp (state : StackState) : Int := state.registers .rsp

/-- The frame pointer. -/
abbrev rbp (state : StackState) : Int := state.registers .rbp

/-- Writes a register. -/
def set (state : StackState) (register : Register) (word : Int) : StackState :=
  { state with
    registers := fun other => if other = register then word else state.registers other }

@[simp] theorem set_same (state : StackState) (register : Register) (word : Int) :
    (state.set register word).registers register = word := if_pos rfl

theorem set_other (state : StackState) {register other : Register} (word : Int)
    (h : other ≠ register) : (state.set register word).registers other = state.registers other :=
  if_neg h

@[simp] theorem set_stack (state : StackState) (register : Register) (word : Int) :
    (state.set register word).stack = state.stack := rfl

/-- A word of the stack is written, and what it does not overlap is kept. -/
structure Stores (state : StackState) (address word : Int) (next : StackState) : Prop where
  registers : next.registers = state.registers
  same : next.stack address = word
  other : ∀ other, Apart other address → next.stack other = state.stack other

/-- A callee has come back. -/
structure Returns (state next : StackState) : Prop where
  registers : ∀ register, register.isCalleeSaved = true →
    next.registers register = state.registers register
  stack : ∀ address, state.rsp ≤ address → next.stack address = state.stack address

/-- An operand may have a word as its contents. -/
def Contains (state : StackState) : Operand → Int → Prop
  | .reg register, word => word = state.registers register
  | .imm value, word => word = value.toInt
  | .frame offset, word => word = state.stack (state.rbp + offset)
  | .data _, _ => True

/-- An operand is written. -/
def Assigns (state : StackState) (word : Int) (next : StackState) : Operand → Prop
  | .reg register => next = state.set register word
  | .frame offset => state.Stores (state.rbp + offset) word next
  | .imm _ | .data _ => next = state

end StackState

open StackState

/-- How far an operation moves the stack pointer, if it moves it by a constant. -/
def AluOp.adjusts : AluOp → Operand → Operand → Option Int
  | .add, .reg .rsp, .imm value => some value.toInt
  | .sub, .reg .rsp, .imm value => some (-value.toInt)
  | _, _, _ => none

/-- What an instruction may do on the way to the next one. -/
def Changes : Instruction → StackState → StackState → Prop
  | .label _, state, next | .comment _, state, next | .jcc _ _, state, next => next = state
  | .mov dest src, state, next => ∃ word, state.Contains src word ∧ state.Assigns word next dest
  | .lea register _, state, next | .neg register, state, next | .set _ register, state, next =>
    ∃ word, next = state.set register word
  | .cqo, state, next => ∃ word, next = state.set .rdx word
  | .idiv _, state, next =>
    ∃ quotient remainder, next = (state.set .rax quotient).set .rdx remainder
  | .alu .cmp _ _, state, next | .alu .test _ _, state, next => next = state
  | .alu op dest src, state, next =>
    match op.adjusts dest src with
    | some distance => next = state.set .rsp (state.rsp + distance)
    | none => ∃ word, state.Assigns word next dest
  | .push operand, state, next =>
    ∃ word, state.Contains operand word ∧
      (state.set .rsp (state.rsp - 8)).Stores (state.rsp - 8) word next
  | .pop register, state, next =>
    next = (state.set .rsp (state.rsp + 8)).set register (state.stack state.rsp)
  | .call _, state, next => state.Returns next
  | .jmp _, _, _ | .ret, _, _ => False

/-- Where an instruction may jump to. -/
def Instruction.target? : Instruction → Option String
  | .jmp target | .jcc _ target => some target
  | _ => none

/-! ## Paths -/

/-- A point of a path: the instructions ahead, and the state. -/
structure Spot where
  rest : List Instruction
  state : StackState

/-- One move along a path: to the next instruction, or to a label. -/
inductive Moves (code : List Instruction) : Spot → Spot → Prop
  /-- Control goes on with the next instruction. -/
  | next {instruction : Instruction} {rest : List Instruction} {state after : StackState}
      (hchanges : Changes instruction state after) :
      Moves code ⟨instruction :: rest, state⟩ ⟨rest, after⟩
  /-- Control goes to a label. -/
  | jump {instruction : Instruction} {target : String} {rest before behind : List Instruction}
      {state : StackState} (htarget : instruction.target? = some target)
      (hlabel : code = before ++ .label target :: behind) :
      Moves code ⟨instruction :: rest, state⟩ ⟨.label target :: behind, state⟩

/-- Paths through some code. -/
abbrev Path (code : List Instruction) : Spot → Spot → Prop := Relation.ReflTransGen (Moves code)

/-- Every operand has a word. -/
theorem exists_contains (state : StackState) (operand : Operand) :
    ∃ word, state.Contains operand word := by
  cases operand with
  | reg | imm | frame => exact ⟨_, rfl⟩
  | data => exact ⟨0, trivial⟩

/-- Every word can be stored. -/
theorem exists_stores (state : StackState) (address word : Int) :
    ∃ next, state.Stores address word next := by
  refine ⟨{ state with stack := fun other => if other = address then word else state.stack other },
    rfl, if_pos rfl, fun other hapart => if_neg ?_⟩
  rintro rfl
  rcases hapart with h | h <;> omega

/-- Every operand can be assigned. -/
theorem exists_assigns (state : StackState) (word : Int) (dest : Operand) :
    ∃ next, state.Assigns word next dest := by
  cases dest with
  | reg | imm | data => exact ⟨_, rfl⟩
  | frame offset => exact exists_stores state _ word

/-- **PATHS DO NOT GET STUCK**: control goes on behind everything but jumps and
    returns. -/
theorem exists_changes {instruction : Instruction} (state : StackState)
    (hjump : ∀ target, instruction ≠ .jmp target) (hret : instruction ≠ .ret) :
    ∃ next, Changes instruction state next := by
  -- one effect is enough: unknown words are taken to be zero
  cases instruction with
  | label | comment | jcc | pop => exact ⟨_, rfl⟩
  | mov dest src =>
      obtain ⟨word, hword⟩ := exists_contains state src
      obtain ⟨next, hnext⟩ := exists_assigns state word dest
      exact ⟨next, word, hword, hnext⟩
  | lea | neg | set | cqo => exact ⟨_, 0, rfl⟩
  | idiv => exact ⟨_, 0, 0, rfl⟩
  | alu op dest src =>
      obtain ⟨assigned, hassigned⟩ := exists_assigns state 0 dest
      cases op with
      | cmp | test => exact ⟨_, rfl⟩
      | add | sub | imul | xor =>
          simp only [Changes]
          split
          · exact ⟨_, rfl⟩
          · exact ⟨assigned, 0, hassigned⟩
  | push operand =>
      obtain ⟨word, hword⟩ := exists_contains state operand
      obtain ⟨next, hnext⟩ :=
        exists_stores (state.set .rsp (state.rsp - 8)) (state.rsp - 8) word
      exact ⟨next, word, hword, hnext⟩
  | call => exact ⟨state, fun _ _ => rfl, fun _ _ => rfl⟩
  | jmp target => exact absurd rfl (hjump target)
  | ret => exact absurd rfl hret

/-- Code without jumps and returns has a path through it. -/
theorem exists_path {code front : List Instruction} (rest : List Instruction)
    (hplain : ∀ instruction ∈ front, (∀ target, instruction ≠ .jmp target) ∧ instruction ≠ .ret)
    (state : StackState) : ∃ after, Path code ⟨front ++ rest, state⟩ ⟨rest, after⟩ := by
  induction front generalizing state with
  | nil => exact ⟨state, .refl⟩
  | cons instruction front ih =>
      obtain ⟨hjump, hret⟩ := hplain instruction List.mem_cons_self
      obtain ⟨next, hnext⟩ := exists_changes state hjump hret
      obtain ⟨after, hpath⟩ :=
        ih (fun other hother => hplain other (List.mem_cons_of_mem _ hother)) next
      exact ⟨after, .head (.next hnext) hpath⟩

/-! ## Instructions one after another -/

section

variable {asks : Instruction → StackState → Prop} {level : StackState → Prop}

/-- Whatever path is taken through some instructions, each finds what it asks for;
    control leaves them at the end with `post`, or by a jump with `level`. -/
def Through (asks : Instruction → StackState → Prop) (level post : StackState → Prop) :
    List Instruction → StackState → Prop
  | [], state => post state
  | instruction :: rest, state => asks instruction state ∧
    (instruction.target? ≠ none → level state) ∧
    ∀ next, Changes instruction state next → Through asks level post rest next

/-- Code passes through what its first part and then its second part passes through. -/
theorem through_append {post : StackState → Prop} {first second : List Instruction}
    {state : StackState} : Through asks level post (first ++ second) state ↔
      Through asks level (Through asks level post second) first state := by
  induction first generalizing state with
  | nil => exact Iff.rfl
  | cons instruction first ih =>
      simp only [List.cons_append, Through, ih]

/-- What is asked at the end may be less. -/
theorem Through.mono {post post' : StackState → Prop} {code : List Instruction}
    {state : StackState} (h : Through asks level post code state)
    (hpost : ∀ state, post state → post' state) : Through asks level post' code state := by
  induction code generalizing state with
  | nil => exact hpost state h
  | cons instruction code ih =>
      exact ⟨h.1, h.2.1, fun next hnext => ih (h.2.2 next hnext)⟩

/-- A single instruction that does not jump. -/
theorem Through.one {post : StackState → Prop} {instruction : Instruction} {state : StackState}
    (hasks : asks instruction state) (hstays : instruction.target? = none)
    (hpost : ∀ next, Changes instruction state next → post next) :
    Through asks level post [instruction] state :=
  ⟨hasks, fun hjumps => absurd hstays hjumps, hpost⟩

/-- Two pieces of code, with what holds between them. -/
theorem Through.append {mid post : StackState → Prop} {first second : List Instruction}
    {state : StackState} (h : Through asks level mid first state)
    (hsecond : ∀ state, mid state → Through asks level post second state) :
    Through asks level post (first ++ second) state :=
  through_append.mpr (h.mono hsecond)

theorem Through.cons {mid post : StackState → Prop} {instruction : Instruction}
    {rest : List Instruction} {state : StackState} (h : Through asks level mid [instruction] state)
    (hrest : ∀ state, mid state → Through asks level post rest state) :
    Through asks level post (instruction :: rest) state := h.append hrest

end

/-! ## Code in parts -/

/-- A label stands alone in its part. -/
def LabelsAlone (code : List Instruction) : Prop :=
  ∀ name, .label name ∈ code → code = [.label name]

theorem labelsAlone_of_unlabelled {code : List Instruction} (h : Emission.Unlabelled code) :
    LabelsAlone code := fun name hmem => absurd hmem (h name)

/-- A label is where a part starts. -/
theorem label_between {codes : List (List Instruction)} (h : ∀ code ∈ codes, LabelsAlone code)
    {before behind : List Instruction} {name : String}
    (hcode : codes.flatten = before ++ .label name :: behind) :
    ∃ done later, codes = done ++ later ∧ later.flatten = .label name :: behind := by
  -- by induction on the parts: a label in the first one is all of it
  induction codes generalizing before with
  | nil =>
      rw [List.flatten_nil] at hcode
      exact absurd hcode.symm (by simp)
  | cons code codes ih =>
      rw [List.flatten_cons, List.append_eq_append_iff] at hcode
      have hrest : ∀ {before : List Instruction}, codes.flatten = before ++ .label name :: behind →
          ∃ done later, code :: codes = done ++ later ∧ later.flatten = .label name :: behind := by
        intro before hbefore
        obtain ⟨done, later, rfl, hlater⟩ :=
          ih (fun other hother => h other (List.mem_cons_of_mem _ hother)) hbefore
        exact ⟨code :: done, later, rfl, hlater⟩
      rcases hcode with ⟨more, rfl, hmore⟩ | ⟨more, rfl, hmore⟩
      · exact hrest hmore
      · cases more with
        | nil => exact @hrest [] hmore.symm
        | cons first more =>
            rw [List.cons_append] at hmore
            injection hmore with hfirst hmore
            subst hfirst
            -- the label is all of this part
            have halone := h _ List.mem_cons_self name (List.mem_append_right _ List.mem_cons_self)
            obtain ⟨rfl, hcons⟩ | ⟨_, hcons⟩ := List.append_eq_singleton_iff.mp halone
            · injection hcons with _ hnil
              exact ⟨[], _, rfl, by rw [List.flatten_cons, hmore, hnil]; rfl⟩
            · cases hcons

/-- The same parts, cut in two ways: one cut is behind a part, or in front of it. -/
theorem flatten_lengths {done later done' later' : List (List Instruction)}
    {part : List Instruction} (h : done ++ later = done' ++ part :: later') :
    later.flatten.length ≤ later'.flatten.length ∨
      part.length + later'.flatten.length ≤ later.flatten.length := by
  rw [← List.length_append, ← List.flatten_cons]
  rcases List.append_eq_append_iff.mp h with ⟨more, -, rfl⟩ | ⟨more, -, hlater⟩
  · refine Or.inr ?_
    rw [List.flatten_append, List.length_append]
    exact Nat.le_add_left _ _
  · cases more with
    | nil => exact Or.inr (Nat.le_of_eq (congrArg (List.length ∘ List.flatten) hlater))
    | cons _ more =>
        injection hlater with _ hlater
        subst hlater
        refine Or.inl ?_
        show later.flatten.length ≤ (more ++ later).flatten.length
        rw [List.flatten_append, List.length_append]
        exact Nat.le_add_left _ _

section

variable {asks : Instruction → StackState → Prop} {level : StackState → Prop}
  {first : List Instruction} {codes : List (List Instruction)}

/-- Where a path is: between two parts of the code, or within one. -/
inductive Located (asks : Instruction → StackState → Prop) (level : StackState → Prop)
    (first : List Instruction) (codes : List (List Instruction)) : Spot → Prop
  /-- Between two parts, behind the first one. -/
  | between {done later : List (List Instruction)} {state : StackState}
      (hcodes : codes = done ++ later) (hlevel : level state) :
      Located asks level first codes ⟨later.flatten, state⟩
  /-- Within a part, behind its start unless it is the first one. -/
  | inside {done later : List (List Instruction)} {before part : List Instruction}
      {state : StackState} (hcodes : first :: codes = done ++ (before ++ part) :: later)
      (hpart : part ≠ []) (hbefore : done = [] ∨ before ≠ [])
      (hthrough : Through asks level level part state) :
      Located asks level first codes ⟨part ++ later.flatten, state⟩

variable (hcodes : ∀ code ∈ codes, ∀ state, level state → Through asks level level code state)
include hcodes

/-- The part that the next instruction belongs to. -/
theorem Located.opened {instruction : Instruction} {rest : List Instruction} {state : StackState}
    (h : Located asks level first codes ⟨instruction :: rest, state⟩) :
    ∃ done before part later, first :: codes = done ++ (before ++ instruction :: part) :: later ∧
      rest = part ++ later.flatten ∧ Through asks level level (instruction :: part) state := by
  -- the spot as a whole is made a variable, so that the case analysis keeps its code
  generalize hspot : Spot.mk (instruction :: rest) state = spot at h
  cases h with
  | @between done later _ hsplit hlevel =>
      injection hspot with hrest hstate
      subst hstate
      -- parts without code are passed over
      induction later generalizing done with
      | nil => cases hrest
      | cons code later ih =>
          cases code with
          | nil => exact @ih (done ++ [[]]) (by rw [hsplit, List.append_assoc]; rfl) hrest
          | cons head code =>
              rw [List.flatten_cons, List.cons_append] at hrest
              injection hrest with hhead hrest
              subst hhead
              have hmem : instruction :: code ∈ codes :=
                hsplit ▸ List.mem_append_right _ List.mem_cons_self
              exact ⟨first :: done, [], code, later, by rw [hsplit]; rfl, hrest,
                hcodes _ hmem state hlevel⟩
  | @inside done later before part _ hsplit hpart _ hthrough =>
      injection hspot with hrest hstate
      subst hstate
      cases part with
      | nil => exact absurd rfl hpart
      | cons head part =>
          rw [List.cons_append] at hrest
          injection hrest with hhead hrest
          subst hhead
          exact ⟨done, before, part, later, hsplit, hrest, hthrough⟩

variable (hunlabelled : Emission.Unlabelled first) (halone : ∀ code ∈ codes, LabelsAlone code)
include hunlabelled halone

/-- **ONE MOVE** keeps a path located. -/
theorem Located.moves {spot next : Spot} (h : Located asks level first codes spot)
    (hmoves : Moves (first ++ codes.flatten) spot next) : Located asks level first codes next := by
  -- a step goes on within the part or to the next one; a jump goes to the start of a part
  cases hmoves with
  | @next instruction rest state after hchanges =>
      obtain ⟨done, before, part, later, hsplit, rfl, hthrough⟩ := h.opened hcodes
      have hafter := hthrough.2.2 after hchanges
      cases part with
      | nil =>
          rw [List.nil_append]
          cases done with
          | nil =>
              injection hsplit with _ hlater
              exact .between (hlater.trans (List.nil_append _).symm) hafter
          | cons _ done =>
              injection hsplit with _ hlater
              exact .between (hlater.trans (List.append_cons _ _ _)) hafter
      | cons head part =>
          rw [List.append_cons before] at hsplit
          exact .inside hsplit (List.cons_ne_nil _ _)
            (Or.inr (List.append_ne_nil_of_right_ne_nil _ (List.cons_ne_nil _ _)))
            hafter
  -- the level holds at every jump, and a part starts at the label
  | @jump instruction target rest before behind state htarget hlabel =>
      obtain ⟨_, _, _, _, -, -, hthrough⟩ := h.opened hcodes
      have hlevel := hthrough.2.1 (by rw [htarget]; exact Option.some_ne_none _)
      rw [List.append_eq_append_iff] at hlabel
      rcases hlabel with ⟨more, rfl, hmore⟩ | ⟨more, rfl, hmore⟩
      · obtain ⟨done, later, hdone, hlater⟩ := label_between halone hmore
        rw [← hlater]
        exact .between hdone hlevel
      · cases more with
        | nil =>
            obtain ⟨done, later, hdone, hlater⟩ := @label_between _ halone [] _ _ hmore.symm
            rw [← hlater]
            exact .between hdone hlevel
        | cons head more =>
            injection hmore with hhead _
            subst hhead
            exact absurd (List.mem_append_right _ List.mem_cons_self) (hunlabelled target)

variable {entry : StackState} (hfirst : first ≠ []) (hentry : Through asks level level first entry)
include hfirst hentry

/-- **WHOLE PATHS** are located. -/
theorem located_of_path {spot : Spot}
    (hpath : Path (first ++ codes.flatten) ⟨first ++ codes.flatten, entry⟩ spot) :
    Located asks level first codes spot := by
  induction hpath with
  | refl => exact .inside (show _ = [] ++ ([] ++ _) :: _ from rfl) hfirst (Or.inl rfl) hentry
  | tail _ hmoves ih => exact ih.moves hcodes hunlabelled halone hmoves

/-- Every instruction on a path finds what it asks for. -/
theorem path_asks {instruction : Instruction} {rest : List Instruction} {state : StackState}
    (hpath : Path (first ++ codes.flatten) ⟨first ++ codes.flatten, entry⟩
      ⟨instruction :: rest, state⟩) : asks instruction state := by
  have hlocated := located_of_path hcodes hunlabelled halone hfirst hentry hpath
  obtain ⟨_, _, _, _, -, -, hthrough⟩ := hlocated.opened hcodes
  exact hthrough.1

/-- Between two parts, every path has the level. -/
theorem path_level {done later : List (List Instruction)} {state : StackState}
    (hsplit : codes = done ++ later)
    (hpath : Path (first ++ codes.flatten) ⟨first ++ codes.flatten, entry⟩
      ⟨later.flatten, state⟩) : level state := by
  have hlocated := located_of_path hcodes hunlabelled halone hfirst hentry hpath
  generalize hspot : Spot.mk later.flatten state = spot at hlocated
  cases hlocated with
  | between _ hlevel =>
      injection hspot with _ hstate
      exact hstate ▸ hlevel
  | @inside done' later' before part _ hsplit' hpart hbefore _ =>
      injection hspot with hrest _
      have hpart := List.length_pos_of_ne_nil hpart
      have hlength := congrArg List.length hrest
      rw [List.length_append] at hlength
      -- the code ahead is that of whole parts, so it cannot start within one
      have hsame : (first :: done) ++ later = done' ++ (before ++ part) :: later' := by
        rw [← hsplit', hsplit]
        rfl
      rcases flatten_lengths hsame with hle | hle
      · omega
      · rw [List.length_append] at hle
        obtain rfl := hbefore.resolve_right fun hne => by
          have := List.length_pos_of_ne_nil hne
          omega
        injection hsplit' with _ hlater
        have hwhole := congrArg (List.length ∘ List.flatten) (hlater.symm.trans hsplit)
        simp only [Function.comp_apply, List.flatten_append, List.length_append] at hwhole
        omega

end

end DecafBackend
