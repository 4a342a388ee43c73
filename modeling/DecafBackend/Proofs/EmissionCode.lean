import DecafBackend.Machine.Emission
import DecafBackend.Proofs.Liveness

/-! # Emitted code

    The code that emission produces, as relations between commands and lists of
    instructions.  What a step of emission looks up in the session stays true in
    all later sessions, so the code of a whole method is described with the
    session in which its emission ends.

    * `Gives` — a step of emission that does not fail
    * `Places`, `Reads`, `ValueCode`, `CommandCode` — operands, accesses, values
      and statements in machine code
    * `Gives.statement`, `emitMethod_code` — emission produces this code -/

namespace DecafBackend

/-- A session that has collected more, and no field among it. -/
structure Session.Grows (early late : Session) : Prop where
  globals : late.globals = early.globals
  texts : early.texts <+: late.texts

namespace Session

theorem Grows.refl (session : Session) : Grows session session := ⟨rfl, List.prefix_rfl⟩

/-- What grows goes on growing. -/
theorem Grows.trans {a b c : Session} (h₁ : Grows a b) (h₂ : Grows b c) : Grows a c :=
  ⟨h₂.globals.trans h₁.globals, h₁.texts.trans h₂.texts⟩

theorem grows_addExtern (session : Session) (name : String) :
    Grows session (session.addExtern name) := ⟨rfl, List.prefix_rfl⟩

/-- A session that grows keeps the labels of its fields. -/
theorem Grows.global? {early late : Session} (h : Grows early late) (name : String) :
    late.global? name = early.global? name := by
  rw [Session.global?, Session.global?, h.globals]

/-- The label of a text that has been collected. -/
def label? (session : Session) (text : String) : Option String :=
  (session.texts.idxOf? text).map (textLabel text)

/-- A text keeps its position when others follow. -/
theorem idxOf?_prefix {early late : List String} (h : early <+: late) {text : String}
    {position : Nat} (hposition : early.idxOf? text = some position) :
    late.idxOf? text = some position := by
  obtain ⟨rest, rfl⟩ := h
  rw [List.idxOf?, List.findIdx?_append, ← List.idxOf?, hposition]
  rfl

/-- A session that grows keeps the labels of its texts. -/
theorem Grows.label? {early late : Session} (h : Grows early late) {text label : String}
    (hlabel : early.label? text = some label) : late.label? text = some label := by
  obtain ⟨position, hposition, rfl⟩ := Option.map_eq_some_iff.mp hlabel
  rw [Session.label?, idxOf?_prefix h.texts hposition]
  rfl

/-- A new text goes to the end. -/
theorem idxOf?_snoc {texts : List String} {text : String} (h : texts.idxOf? text = none) :
    (texts ++ [text]).idxOf? text = some texts.length := by
  rw [List.idxOf?, List.findIdx?_append, ← List.idxOf?, h]
  simp

/-- An interned text has a label. -/
theorem grows_internText (session : Session) (text : String) :
    Grows session (session.internText text).2 ∧
      (session.internText text).2.label? text = some (session.internText text).1 := by
  rw [internText]
  cases hposition : session.texts.idxOf? text with
  | some position => exact ⟨Grows.refl session, by rw [Session.label?, hposition]; rfl⟩
  | none =>
      refine ⟨⟨rfl, List.prefix_append _ _⟩, ?_⟩
      rw [Session.label?, idxOf?_snoc hposition]
      rfl

end Session

namespace Emission

/-! ## Steps that do not fail -/

/-- A step of emission gives a result and leaves a state. -/
def Gives {α : Type} (step : Emit α) (context : Context) (state : State) (result : α)
    (after : State) : Prop :=
  step context state = .ok (.ok result, after)

/-- What a step added: some code, and texts and external names at most. -/
structure Added (state after : State) (code : List Instruction) : Prop where
  code : after.code.toList = state.code.toList ++ code
  session : state.session.Grows after.session

/-- Nothing is added where nothing happens. -/
theorem Added.refl (state : State) : Added state state [] :=
  ⟨(List.append_nil _).symm, Session.Grows.refl _⟩

/-- What is added goes behind what was there. -/
theorem Added.trans {a b c : State} {first second : List Instruction} (h₁ : Added a b first)
    (h₂ : Added b c second) : Added a c (first ++ second) :=
  ⟨by rw [h₂.code, h₁.code, List.append_assoc], h₁.session.trans h₂.session⟩

section

variable {α β : Type} {context : Context} {state after : State}

/-- **SEQUENCES**: what succeeds as a whole succeeds step by step. -/
theorem Gives.bind {step : Emit α} {next : α → Emit β} {result : β}
    (h : Gives (step >>= next) context state result after) :
    ∃ a middle, Gives step context state a middle ∧ Gives (next a) context middle result after := by
  rw [Gives] at h
  simp only [Bind.bind, ReaderT.bind, ExceptT.bind, ExceptT.mk, StateT.bind, Except.bind] at h
  cases hstep : step context state with
  | error fault => rw [hstep] at h; cases h
  | ok pair =>
      obtain ⟨a | a, middle⟩ := pair
      · rw [hstep] at h; cases h
      · rw [hstep] at h; exact ⟨a, middle, hstep, h⟩

/-- What succeeds step by step succeeds as a whole. -/
theorem Gives.then {step : Emit α} {next : α → Emit β} {a : α} {middle : State} {result : β}
    (h : Gives step context state a middle) (hnext : Gives (next a) context middle result after) :
    Gives (step >>= next) context state result after := by
  rw [Gives] at h ⊢
  simp only [Bind.bind, ReaderT.bind, ExceptT.bind, ExceptT.mk, StateT.bind, Except.bind, h]
  exact hnext

/-- A step that only computes changes nothing. -/
theorem Gives.lift {x : Checked α} {a : α} (h : Gives (liftM x) context state a after) :
    x = .ok a ∧ state = after := by
  cases x with
  | error fault => cases h
  | ok b => cases h; exact ⟨rfl, rfl⟩

/-- An instruction is added to the code. -/
theorem Gives.push {instruction : Instruction}
    (h : Gives (push instruction) context state () after) :
    Added state after [instruction] ∧ after.scratch = state.scratch := by
  cases h
  exact ⟨⟨Array.toList_push, Session.Grows.refl _⟩, rfl⟩

/-- A scratch register is taken without any code. -/
theorem Gives.takeScratch {register : Register}
    (h : Gives takeScratch context state register after) :
    Added state after [] ∧ state.scratch.take = some (register, after.scratch) := by
  obtain ⟨_, _, hget, h⟩ := h.bind
  cases hget
  split at h
  · next taken scratch htake =>
      obtain ⟨_, _, hmodify, h⟩ := h.bind
      cases hmodify
      cases h
      exact ⟨⟨(List.append_nil _).symm, Session.Grows.refl _⟩, htake⟩
  · cases h

/-- A register is released without any code. -/
theorem Gives.release {register : Register}
    (h : Gives (release register) context state () after) :
    Added state after [] ∧ after.scratch = state.scratch.release register := by
  cases h
  exact ⟨⟨(List.append_nil _).symm, Session.Grows.refl _⟩, rfl⟩

/-- What is malformed gives nothing. -/
theorem Gives.malformed {reason : String} {a : α}
    (h : Gives (malformed reason) context state a after) : False := by
  cases h

/-- Steps for the elements of a list begin with the first one. -/
theorem forM_cons (a : α) (list : List α) (step : α → Emit Unit) :
    (a :: list).forM step = (step a >>= fun _ => list.forM step) := rfl

/-- A step under a condition, and what comes after it. -/
theorem Gives.ifThen {c : Prop} [Decidable c] {step : Emit Unit} {next : Unit → Emit β} {b : β}
    (h : Gives (if c then step >>= next else next ()) context state b after) :
    ∃ middle, Gives (if c then step else pure ()) context state () middle ∧
      Gives (next ()) context middle b after := by
  split at h
  · next hc =>
      obtain ⟨_, middle, hstep, hnext⟩ := h.bind
      rw [if_pos hc]
      exact ⟨middle, hstep, hnext⟩
  · next hc =>
      rw [if_neg hc]
      exact ⟨state, rfl, h⟩

/-- Code for the elements of a list, one instruction for each. -/
theorem Gives.forM_push {f : α → Instruction} {list : List α}
    (h : Gives (list.forM fun a => Emission.push (f a)) context state () after) :
    Added state after (list.map f) ∧ after.scratch = state.scratch := by
  induction list generalizing state with
  | nil =>
      cases h
      exact ⟨Added.refl _, rfl⟩
  | cons a list ih =>
      rw [forM_cons] at h
      obtain ⟨_, middle, hpush, hrest⟩ := h.bind
      obtain ⟨hadded, hscratch⟩ := hpush.push
      obtain ⟨hadded', hscratch'⟩ := ih hrest
      exact ⟨hadded.trans hadded', hscratch'.trans hscratch⟩

end

/-! ## Operands -/

section

variable (context : Context) (session : Session)

/-- Where an access finds its location. -/
inductive Places (access : Access) : Operand → Prop
  /-- In the register that it is bound to. -/
  | register {register : Register} (hbound : context.body.bindings.get? access = some register) :
      Places access (.reg register)
  /-- In the slot of a variable or temporary. -/
  | slot {offset : Int} (hunbound : context.body.bindings.get? access = none)
      (htracks : context.body.tracks access.loc = true)
      (hslot : context.frame.slot? access.loc = some offset) : Places access (.frame offset)
  /-- At the label of a field. -/
  | field {symbol : Symbol} {name label : String}
      (hunbound : context.body.bindings.get? access = none)
      (hlocation : context.body.locations[access.loc.index]? = some (.global symbol))
      (hname : context.symbols.text symbol = .ok name)
      (hlabel : session.global? name = some label) : Places access (.data label)
  /-- In the instruction. -/
  | constant {value : Int64} (hunbound : context.body.bindings.get? access = none)
      (hlocation : context.body.locations[access.loc.index]? = some (.constant value)) :
      Places access (.imm value)

/-- The instruction that brings what an access reads into a register. -/
inductive Fetches (access : Access) (register : Register) : Instruction → Prop
  /-- From where it is. -/
  | stored {operand : Operand} (hunbound : context.body.bindings.get? access = none)
      (hplaces : Places context session access operand) :
      Fetches access register (.mov (.reg register) operand)
  /-- The address of a literal text. -/
  | literal {symbol : Symbol} {text label : String}
      (hunbound : context.body.bindings.get? access = none)
      (hlocation : context.body.locations[access.loc.index]? = some (.literal symbol))
      (htext : context.symbols.text symbol = .ok text)
      (hlabel : session.label? text = some label) : Fetches access register (.lea register label)

/-- The code that has what an access reads in a register, with the scratch
    registers that are free before and after it. -/
inductive Reads (access : Access) (pool : ScratchPool) :
    Register → ScratchPool → List Instruction → Prop
  /-- None, if the access is bound to the register. -/
  | bound {register : Register} (hbound : context.body.bindings.get? access = some register) :
      Reads access pool register pool []
  /-- An instruction that fills a free register. -/
  | fetched {register : Register} {pool' : ScratchPool} {instruction : Instruction}
      (htake : pool.take = some (register, pool'))
      (hfetches : Fetches context session access register instruction) :
      Reads access pool register pool' [instruction]

end

section

variable {context : Context} {state after : State} {last : Session}

/-- A location that is found is one of the body. -/
theorem location_ok {body : Body} {loc : Loc} {location : Location}
    (h : body.location loc = .ok location) : body.locations[loc.index]? = some location := by
  rw [Body.location] at h
  split at h
  · next other hother => cases h; exact hother
  · cases h

/-- A variable or temporary is tracked. -/
theorem tracks_of_location {body : Body} {loc : Loc} {location : Location}
    (h : body.locations[loc.index]? = some location)
    (hallocatable : location.isAllocatable = true) :
    body.tracks loc = true := by
  rw [Body.tracks, h]
  exact hallocatable

/-- **OPERANDS ARE PLACES**: what an access is read from or written to. -/
theorem Gives.storage {access : Access} {operand : Operand}
    (h : Gives (storage access) context state operand after) (hlast : after.session.Grows last) :
    state = after ∧ Places context last access operand := by
  obtain ⟨_, _, hread, h⟩ := h.bind
  cases hread
  split at h
  · next register hbound => cases h; exact ⟨rfl, .register hbound⟩
  · next hunbound =>
      obtain ⟨location, _, hlocation, h⟩ := h.bind
      -- only the kinds of locations that have a place give one
      obtain ⟨hfound, rfl⟩ := hlocation.lift
      replace hlocation := location_ok hfound
      cases location with
      | localVar | temp =>
          dsimp only at h
          split at h
          · next offset hslot =>
              cases h
              exact ⟨rfl, .slot hunbound (tracks_of_location hlocation rfl) hslot⟩
          · cases h
      | global symbol =>
          obtain ⟨name, _, hname, h⟩ := h.bind
          obtain ⟨htext, rfl⟩ := hname.lift
          obtain ⟨_, _, hget, h⟩ := h.bind
          cases hget
          split at h
          · next label hlabel =>
              cases h
              exact ⟨rfl, .field hunbound hlocation htext ((hlast.global? name).trans hlabel)⟩
          · cases h
      | constant value =>
          cases h
          exact ⟨rfl, .constant hunbound hlocation⟩
      | literal text => exact h.malformed.elim

/-- A text of a literal has a label behind its use. -/
theorem Gives.internText {text label : String}
    (h : Gives (inSession (·.internText text)) context state label after) :
    Added state after [] ∧ after.scratch = state.scratch ∧
      after.session.label? text = some label := by
  cases h
  obtain ⟨hgrows, hlabel⟩ := Session.grows_internText state.session text
  exact ⟨⟨(List.append_nil _).symm, hgrows⟩, rfl, hlabel⟩

/-- **READS**: an access is in its register already, or is moved into a scratch register. -/
theorem Gives.readAccess {access : Access} {register : Register}
    (h : Gives (readAccess access) context state register after)
    (hlast : after.session.Grows last) :
    ∃ code, Added state after code ∧
      Reads context last access state.scratch register after.scratch code := by
  obtain ⟨_, _, hread, h⟩ := h.bind
  cases hread
  split at h
  · next bound hbound => cases h; exact ⟨[], Added.refl _, .bound hbound⟩
  · next hunbound =>
      obtain ⟨location, _, hlocation, h⟩ := h.bind
      obtain ⟨hfound, rfl⟩ := hlocation.lift
      -- what is no literal is fetched from its operand
      replace hlocation := location_ok hfound
      have hstored : Gives (do
          let src ← Emission.storage access
          let out ← Emission.takeScratch
          Emission.push (.mov (.reg out) src)
          return out : Emit Register) context state register after →
          ∃ code, Added state after code ∧
            Reads context last access state.scratch register after.scratch code := by
        intro h
        obtain ⟨operand, first, hstorage, h⟩ := h.bind
        obtain ⟨out, second, htake, h⟩ := h.bind
        obtain ⟨_, third, hpush, h⟩ := h.bind
        cases h
        obtain ⟨hadded, hscratch⟩ := hpush.push
        obtain ⟨hadded', htaken⟩ := htake.takeScratch
        obtain ⟨rfl, hplaces⟩ := hstorage.storage
          (hadded'.session.trans (hadded.session.trans hlast))
        rw [← hscratch] at htaken
        exact ⟨_, hadded'.trans hadded, .fetched htaken (.stored hunbound hplaces)⟩
      cases location with
      | literal symbol =>
          obtain ⟨text, _, hname, h⟩ := h.bind
          obtain ⟨htext, rfl⟩ := hname.lift
          obtain ⟨label, first, hintern, h⟩ := h.bind
          obtain ⟨out, second, htake, h⟩ := h.bind
          obtain ⟨_, third, hpush, h⟩ := h.bind
          cases h
          obtain ⟨hadded, hscratch⟩ := hpush.push
          obtain ⟨hadded', htaken⟩ := htake.takeScratch
          obtain ⟨hadded'', hsame, hlabel⟩ := hintern.internText
          rw [← hscratch, hsame] at htaken
          have hlater := hadded'.session.trans (hadded.session.trans hlast)
          exact ⟨_, hadded''.trans (hadded'.trans hadded),
            .fetched htaken (.literal hunbound hlocation htext (hlater.label? hlabel))⟩
      | localVar name => exact hstored h
      | temp => exact hstored h
      | global symbol => exact hstored h
      | constant value => exact hstored h

end

/-! ## Values -/

/-- A copy into a register, unless the word is there already. -/
def moveCode (dest src : Register) : List Instruction :=
  if dest ≠ src then [.mov (.reg dest) (.reg src)] else []

/-- A comparison. -/
def compareCode (condition : Condition) (lhs rhs : Register) : List Instruction :=
  [.alu .cmp (.reg lhs) (.reg rhs), .set condition .r10]

/-- A division. -/
def divideCode (result lhs rhs : Register) : List Instruction :=
  [.mov (.reg .rax) (.reg lhs), .cqo, .idiv rhs, .mov (.reg .r10) (.reg result)]

/-- Another operation on two registers. -/
def combineCode (op : AluOp) (lhs rhs : Register) : List Instruction :=
  if .r10 = rhs ∧ .r10 ≠ lhs then
    if op = .sub then [.neg .r10, .alu .add (.reg .r10) (.reg lhs)]
    else [.alu op (.reg .r10) (.reg lhs)]
  else moveCode .r10 lhs ++ [.alu op (.reg .r10) (.reg rhs)]

/-- An operator applied to two registers. -/
def binaryCode (op : BinaryOp) (lhs rhs : Register) : List Instruction :=
  match op with
  | .add => combineCode .add lhs rhs
  | .sub => combineCode .sub lhs rhs
  | .mul => combineCode .imul lhs rhs
  | .div => divideCode .rax lhs rhs
  | .mod => divideCode .rdx lhs rhs
  | .eq => compareCode .e lhs rhs
  | .ne => compareCode .ne lhs rhs
  | .lt => compareCode .l lhs rhs
  | .le => compareCode .le lhs rhs
  | .gt => compareCode .g lhs rhs
  | .ge => compareCode .ge lhs rhs

/-- An operator applied to a register. -/
def unaryCode (op : UnaryOp) (operand : Register) : List Instruction :=
  match op with
  | .neg => moveCode .r10 operand ++ [.neg .r10]
  | .not => [.alu .cmp (.reg operand) (.imm 0), .set .e .r10]

section

variable {context : Context} {state after : State} {register : Register}

/-- The first scratch register is taken first. -/
theorem take_first {pool : ScratchPool} (h : pool.firstFree = true) :
    pool.take = some (.r10, { pool with firstFree := false }) := by
  rw [ScratchPool.take, if_pos h]

/-- With the first scratch register free, it is the one that is taken. -/
theorem Gives.takeFirst (h : Gives Emission.takeScratch context state register after)
    (hfree : state.scratch.firstFree = true) : Added state after [] ∧ register = .r10 := by
  obtain ⟨hadded, htake⟩ := h.takeScratch
  rw [take_first hfree, Option.some.injEq, Prod.mk.injEq] at htake
  exact ⟨hadded, htake.1.symm⟩

/-- Comparisons become their code. -/
theorem Gives.compareInto {condition : Condition} {lhs rhs : Register}
    (h : Gives (Emission.compareInto condition lhs rhs) context state register after)
    (hfree : state.scratch.firstFree = true) :
    Added state after (compareCode condition lhs rhs) ∧ register = .r10 := by
  obtain ⟨_, first, hcompare, h⟩ := h.bind
  obtain ⟨out, second, htake, h⟩ := h.bind
  obtain ⟨_, third, hset, h⟩ := h.bind
  cases h
  obtain ⟨hadded, hscratch⟩ := hcompare.push
  obtain ⟨hadded', rfl⟩ := htake.takeFirst (hscratch ▸ hfree)
  exact ⟨hadded.trans (hadded'.trans hset.push.1), rfl⟩

/-- Divisions become their code. -/
theorem Gives.divideInto {result lhs rhs : Register}
    (h : Gives (Emission.divideInto result lhs rhs) context state register after)
    (hfree : state.scratch.firstFree = true) :
    Added state after (divideCode result lhs rhs) ∧ register = .r10 := by
  obtain ⟨_, first, hmove, h⟩ := h.bind
  obtain ⟨_, second, hextend, h⟩ := h.bind
  obtain ⟨_, third, hdivide, h⟩ := h.bind
  obtain ⟨out, fourth, htake, h⟩ := h.bind
  obtain ⟨_, fifth, hresult, h⟩ := h.bind
  cases h
  obtain ⟨hadded₁, hscratch₁⟩ := hmove.push
  obtain ⟨hadded₂, hscratch₂⟩ := hextend.push
  obtain ⟨hadded₃, hscratch₃⟩ := hdivide.push
  obtain ⟨hadded₄, rfl⟩ := htake.takeFirst (by rw [hscratch₃, hscratch₂, hscratch₁]; exact hfree)
  exact ⟨hadded₁.trans (hadded₂.trans (hadded₃.trans (hadded₄.trans hresult.push.1))), rfl⟩

/-- A conditional copy between registers. -/
theorem Gives.moveUnless {dest src : Register}
    (h : Gives (if dest ≠ src then move dest src else pure ()) context state () after) :
    Added state after (moveCode dest src) ∧ after.scratch = state.scratch := by
  rw [moveCode]
  split at h
  · next hne => rw [if_pos hne]; exact h.push
  · next heq =>
      cases h
      rw [if_neg heq]
      exact ⟨Added.refl _, rfl⟩

/-- Sums and products become their code. -/
theorem Gives.combineInto {op : AluOp} {lhs rhs : Register}
    (h : Gives (Emission.combineInto op lhs rhs) context state register after)
    (hfree : state.scratch.firstFree = true) :
    Added state after (combineCode op lhs rhs) ∧ register = .r10 := by
  -- the result may be where the right operand is, which decides on the order
  obtain ⟨out, first, htake, h⟩ := h.bind
  obtain ⟨hadded, rfl⟩ := htake.takeFirst hfree
  rw [combineCode]
  dsimp only at h
  split at h
  · next hexchange =>
      rw [if_pos hexchange]
      split at h
      · next hsub =>
          obtain ⟨_, second, hneg, h⟩ := h.bind
          obtain ⟨_, third, hadd, h⟩ := h.bind
          cases h
          rw [if_pos hsub]
          exact ⟨hadded.trans (hneg.push.1.trans hadd.push.1), rfl⟩
      · next hother =>
          obtain ⟨_, second, hop, h⟩ := h.bind
          cases h
          rw [if_neg hother]
          exact ⟨hadded.trans hop.push.1, rfl⟩
  · next hplain =>
      rw [if_neg hplain]
      obtain ⟨second, hmove, h⟩ := h.ifThen
      obtain ⟨_, third, hop, h⟩ := h.bind
      cases h
      exact ⟨hadded.trans (hmove.moveUnless.1.trans hop.push.1), rfl⟩

/-- Binary operations become their code. -/
theorem Gives.binaryInto {op : BinaryOp} {lhs rhs : Register}
    (h : Gives (Emission.binaryInto op lhs rhs) context state register after)
    (hfree : state.scratch.firstFree = true) :
    Added state after (binaryCode op lhs rhs) ∧ register = .r10 := by
  cases op with
  | add | sub | mul => exact Gives.combineInto h hfree
  | div | mod => exact Gives.divideInto h hfree
  | eq | ne | lt | le | gt | ge => exact Gives.compareInto h hfree

/-- Unary operations become their code. -/
theorem Gives.unaryInto {op : UnaryOp} {operand : Register}
    (h : Gives (Emission.unaryInto op operand) context state register after)
    (hfree : state.scratch.firstFree = true) :
    Added state after (unaryCode op operand) ∧ register = .r10 := by
  obtain ⟨out, first, htake, h⟩ := h.bind
  obtain ⟨hadded, rfl⟩ := htake.takeFirst hfree
  cases op with
  | neg =>
      obtain ⟨second, hmove, h⟩ := h.ifThen
      obtain ⟨_, third, hneg, h⟩ := h.bind
      cases h
      exact ⟨hadded.trans (hmove.moveUnless.1.trans hneg.push.1), rfl⟩
  | not =>
      obtain ⟨_, second, hcompare, h⟩ := h.bind
      obtain ⟨_, third, hset, h⟩ := h.bind
      cases h
      exact ⟨hadded.trans (hcompare.push.1.trans hset.push.1), rfl⟩

end

/-! ## Calls -/

/-- Pushes of registers. -/
def pushAll (registers : List Register) : List Instruction :=
  registers.map fun register => .push (.reg register)

/-- Pops into registers that were pushed, the last one first. -/
def popAll (registers : List Register) : List Instruction := registers.reverse.map .pop

/-- The arguments of a call that stay on the stack. -/
def onStack (args : List Loc) : List Loc := args.drop Register.arguments.length

/-- The arguments of a call that go into registers. -/
def inRegisters (args : List Loc) : List Loc := args.take Register.arguments.length

/-- Whether a call pushes a word more so that the stack is aligned. -/
def isPadded (args : List Loc) (saved : List Register) : Bool :=
  (saved.length + (onStack args).length) % 2 == 1

/-- The bytes that a call takes off the stack behind the callee. -/
def cleanup (args : List Loc) (saved : List Register) : Nat :=
  ((onStack args).length + (isPadded args saved).toNat) * 8

section

variable (context : Context) (session : Session) (inst : Inst)

/-- The code that pushes arguments. -/
inductive Pushes : List Loc → List Instruction → Prop
  /-- No arguments. -/
  | nil : Pushes [] []
  /-- One argument, and the others. -/
  | cons {arg : Loc} {args : List Loc} {register : Register} {pool : ScratchPool}
      {code rest : List Instruction}
      (hreads : Reads context session ⟨inst, arg⟩ {} register pool code)
      (hrest : Pushes args rest) : Pushes (arg :: args) (code ++ .push (.reg register) :: rest)

/-- The code of a call. -/
inductive CallCode (target : Symbol) (args : List Loc) (isExternal : Bool) (saved : List Register) :
    List Instruction → Prop
  /-- Registers are saved, arguments are put in place, and afterwards the
      registers are restored. -/
  | intro {name : String} {stacked registered : List Instruction}
      (hname : context.symbols.text target = .ok name)
      (hstacked : Pushes context session inst (onStack args).reverse stacked)
      (hregistered : Pushes context session inst (inRegisters args) registered)
      (hcleanup : cleanup args saved ≤ 9223372036854775807) :
      CallCode target args isExternal saved
        (pushAll saved ++
          ((if isPadded args saved then [.alu .sub (.reg .rsp) (.imm 8)] else []) ++
          (stacked ++ (registered ++
          (popAll (Register.arguments.take (inRegisters args).length) ++
          ((if isExternal then [.alu .xor (.reg .rax) (.reg .rax)] else []) ++
          (.call name ::
          ((if 0 < cleanup args saved then
              [.alu .add (.reg .rsp) (.imm (Int64.ofNat (cleanup args saved)))]
            else []) ++ popAll saved))))))))

end

section

variable {context : Context} {state after : State} {last : Session} {inst : Inst}

/-- A register that was read into is free again once it is given back. -/
theorem Reads.release {access : Access} {register : Register} {pool : ScratchPool}
    {code : List Instruction} (h : Reads context last access {} register pool code) :
    pool.release register = {} := by
  cases h with
  | bound hbound => cases register <;> rfl
  | fetched htake hfetches => cases htake; rfl

/-- So are both, after two reads. -/
theorem Reads.release_both {first second : Access} {lhs rhs : Register} {pool pool' : ScratchPool}
    {code code' : List Instruction} (h : Reads context last first {} lhs pool code)
    (h' : Reads context last second pool rhs pool' code') :
    ((pool'.release lhs).release rhs).firstFree = true := by
  cases h with
  | bound hbound =>
      cases h' with
      | bound hbound' => cases lhs <;> cases rhs <;> rfl
      | fetched htake hfetches => cases htake; cases lhs <;> rfl
  | fetched htake hfetches =>
      cases htake
      cases h' with
      | bound hbound' => cases rhs <;> rfl
      | fetched htake' hfetches' => cases htake'; rfl

/-- An argument is read and pushed. -/
theorem Gives.pushArg {arg : Loc} (h : Gives (pushArg inst arg) context state () after)
    (hlast : after.session.Grows last) (hfree : state.scratch = {}) :
    ∃ register pool code, Added state after (code ++ [.push (.reg register)]) ∧
      Reads context last ⟨inst, arg⟩ {} register pool code ∧ after.scratch = {} := by
  obtain ⟨register, first, hread, h⟩ := h.bind
  obtain ⟨_, second, hrelease, h⟩ := h.bind
  obtain ⟨hadded₃, hscratch₃⟩ := h.push
  obtain ⟨hadded₂, hscratch₂⟩ := hrelease.release
  obtain ⟨code, hadded₁, hreads⟩ :=
    hread.readAccess (hadded₂.session.trans (hadded₃.session.trans hlast))
  rw [hfree] at hreads
  refine ⟨register, first.scratch, code, hadded₁.trans (hadded₂.trans hadded₃), hreads, ?_⟩
  rw [hscratch₃, hscratch₂, hreads.release]

/-- Arguments are read and pushed one after the other. -/
theorem Gives.pushArgs {args : List Loc}
    (h : Gives (args.forM (Emission.pushArg inst)) context state () after)
    (hlast : after.session.Grows last) (hfree : state.scratch = {}) :
    ∃ code, Added state after code ∧ Pushes context last inst args code ∧ after.scratch = {} := by
  induction args generalizing state with
  | nil =>
      cases h
      exact ⟨[], Added.refl _, .nil, hfree⟩
  | cons arg args ih =>
      rw [forM_cons] at h
      obtain ⟨_, middle, hpush, hrest⟩ := h.bind
      -- each argument gives its register back, so the next one finds the pool full
      have hscratch : middle.scratch = {} := by
        obtain ⟨_, _, _, -, -, hscratch⟩ := hpush.pushArg (Session.Grows.refl _) hfree
        exact hscratch
      obtain ⟨rest, hadded', hpushes, hscratch'⟩ := ih hrest hscratch
      obtain ⟨register, pool, code, hadded, hreads, -⟩ :=
        hpush.pushArg (hadded'.session.trans hlast) hfree
      refine ⟨_, hadded.trans hadded', ?_, hscratch'⟩
      rw [List.append_assoc]
      exact .cons hreads hpushes

/-- An instruction under a condition. -/
theorem Gives.pushIf {c : Prop} [Decidable c] {instruction : Instruction}
    (h : Gives (if c then Emission.push instruction else pure ()) context state () after) :
    Added state after (if c then [instruction] else []) ∧ after.scratch = state.scratch := by
  split at h
  · next hc => rw [if_pos hc]; exact h.push
  · next hc =>
      cases h
      rw [if_neg hc]
      exact ⟨Added.refl _, rfl⟩

/-- The name of an external callee is noted, and `rax` is cleared for it. -/
theorem Gives.external {β : Type} {isExternal : Bool} {name : String} {next : Unit → Emit β} {b : β}
    (h : Gives (if isExternal then
        inSession (fun session => ((), session.addExtern name)) >>= fun _ => clear .rax >>= next
      else next ()) context state b after) :
    ∃ middle, Added state middle (if isExternal then [.alu .xor (.reg .rax) (.reg .rax)] else []) ∧
      middle.scratch = state.scratch ∧ Gives (next ()) context middle b after := by
  cases isExternal with
  | true =>
      obtain ⟨_, noted, hextern, h⟩ := h.bind
      cases hextern
      obtain ⟨_, middle, hclear, h⟩ := h.bind
      obtain ⟨hadded, hscratch⟩ := hclear.push
      exact ⟨middle, ⟨hadded.code, (Session.grows_addExtern _ _).trans hadded.session⟩, hscratch, h⟩
  | false => exact ⟨state, Added.refl _, rfl, h⟩

/-- A number fits if it is one of the signed machine integers. -/
theorem fit64_eq_ok {n m : Nat} (h : fit64 n = .ok m) : m = n ∧ n ≤ 9223372036854775807 := by
  rw [fit64] at h
  split at h
  · next hfits =>
      cases h
      exact ⟨rfl, hfits⟩
  · cases h

/-- **CALLS BECOME THEIR CODE**. -/
theorem Gives.emitCall {target : Symbol} {args : List Loc} {isExternal : Bool}
    {saved : List Register}
    (h : Gives (emitCall inst target args isExternal saved) context state () after)
    (hlast : after.session.Grows last) (hfree : state.scratch = {}) :
    ∃ code, Added state after code ∧
      CallCode context last inst target args isExternal saved code ∧ after.scratch = {} := by
  obtain ⟨_, _, hread, h⟩ := h.bind
  cases hread
  obtain ⟨name, _, hname, h⟩ := h.bind
  obtain ⟨htext, rfl⟩ := hname.lift
  obtain ⟨_, s₁, hsaved, h⟩ := h.bind
  obtain ⟨s₂, hpadded, h⟩ := h.ifThen
  obtain ⟨_, s₃, hstacked, h⟩ := h.bind
  obtain ⟨_, s₄, hregistered, h⟩ := h.bind
  obtain ⟨_, s₅, hpopped, h⟩ := h.bind
  obtain ⟨s₆, added₆, scratch₆, h⟩ := h.external
  obtain ⟨_, s₇, hcall, h⟩ := h.bind
  obtain ⟨bytes, _, hbytes, h⟩ := h.bind
  obtain ⟨hfits, rfl⟩ := hbytes.lift
  obtain ⟨rfl, hsmall⟩ := fit64_eq_ok hfits
  obtain ⟨s₈, hcleanup, hrestored⟩ := h.ifThen
  obtain ⟨added₁, scratch₁⟩ := hsaved.forM_push
  obtain ⟨added₂, scratch₂⟩ := hpadded.pushIf
  obtain ⟨added₅, scratch₅⟩ := hpopped.forM_push
  obtain ⟨added₇, scratch₇⟩ := hcall.push
  obtain ⟨added₈, scratch₈⟩ := hcleanup.pushIf
  obtain ⟨added₉, scratch₉⟩ := hrestored.forM_push
  -- labels are those of the last session, so the later parts are taken first
  have hbehind := added₅.trans (added₆.trans (added₇.trans (added₈.trans added₉)))
  have free₂ : s₂.scratch = {} := by rw [scratch₂, scratch₁, hfree]
  have free₃ : s₃.scratch = {} := by
    obtain ⟨_, -, -, free₃⟩ := hstacked.pushArgs (Session.Grows.refl _) free₂
    exact free₃
  obtain ⟨registered, added₄, hregistered, free₄⟩ :=
    hregistered.pushArgs (hbehind.session.trans hlast) free₃
  obtain ⟨stacked, added₃, hstacked, -⟩ :=
    hstacked.pushArgs (added₄.session.trans (hbehind.session.trans hlast)) free₂
  refine ⟨_, added₁.trans (added₂.trans (added₃.trans (added₄.trans hbehind))), ?_, ?_⟩
  · exact .intro htext hstacked hregistered hsmall
  · rw [scratch₉, scratch₈, scratch₇, scratch₆, scratch₅, free₄]

end

/-! ## Statements -/

/-- The code that leaves a method. -/
def epilogueCode (context : Context) : List Instruction :=
  popAll context.calleeSaved ++ [.mov (.reg .rsp) (.reg .rbp), .pop .rbp, .ret]

/-- A store of a register, unless the word is there already. -/
def storeCode (operand : Operand) (register : Register) : List Instruction :=
  if operand ≠ .reg register then [.mov operand (.reg register)] else []

section

variable (context : Context) (session : Session)

/-- The code that has a value in a register. -/
inductive ValueCode : Value → Register → List Instruction → Prop
  /-- A read. -/
  | load {access : Access} {register : Register} {pool : ScratchPool} {code : List Instruction}
      (hreads : Reads context session access {} register pool code) :
      ValueCode (.load access) register code
  /-- An incoming argument. -/
  | param {inst : Inst} {index : Nat} {offset : Int}
      (hparam : context.frame.param? index = .ok (some offset)) :
      ValueCode (.param inst index) .r10 [.mov (.reg .r10) (.frame offset)]
  /-- An operator applied to one operand. -/
  | unary {inst : Inst} {op : UnaryOp} {operand : Access} {register : Register}
      {pool : ScratchPool} {code : List Instruction}
      (hreads : Reads context session operand {} register pool code) :
      ValueCode (.unary inst op operand) .r10 (code ++ unaryCode op register)
  /-- An operator applied to two operands. -/
  | binary {inst : Inst} {op : BinaryOp} {lhs rhs : Access} {left right : Register}
      {pool pool' : ScratchPool} {code code' : List Instruction}
      (hleft : Reads context session lhs {} left pool code)
      (hright : Reads context session rhs pool right pool' code') :
      ValueCode (.binary inst op lhs rhs) .r10 (code ++ (code' ++ binaryCode op left right))
  /-- The result of a call. -/
  | call {inst : Inst} {target : Symbol} {args : List Loc} {isExternal : Bool}
      {saved : List Register} {code : List Instruction}
      (hcall : CallCode context session inst target args isExternal saved code) :
      ValueCode (.call inst target args isExternal saved) .r10
        (code ++ [.mov (.reg .r10) (.reg .rax)])

/-- The code of a statement. -/
inductive CommandCode (stmt : Inst) : Command → List Instruction → Prop
  /-- A save. -/
  | save {value : Value} {dest : Loc} {register : Register} {operand : Operand}
      {code : List Instruction} (hvalue : ValueCode context session value register code)
      (hplaces : Places context session ⟨stmt, dest⟩ operand) :
      CommandCode stmt (.save value dest) (code ++ storeCode operand register)
  /-- A call whose result is discarded. -/
  | call {target : Symbol} {args : List Loc} {isExternal : Bool} {saved : List Register}
      {code : List Instruction}
      (hcall : CallCode context session stmt target args isExternal saved code) :
      CommandCode stmt (.call target args isExternal saved) code
  /-- A read without effect. -/
  | use (loc : Loc) : CommandCode stmt (.use loc) []
  /-- A jump target. -/
  | label (place : Label) : CommandCode stmt (.label place) [.label (labelName place)]
  /-- A jump. -/
  | jump (target : Label) : CommandCode stmt (.jump target) [.jmp (labelName target)]
  /-- A jump under a condition. -/
  | branch {cond : Access} {target : Label} {register : Register} {pool : ScratchPool}
      {code : List Instruction} (hreads : Reads context session cond {} register pool code) :
      CommandCode stmt (.branch cond target)
        (code ++ [.alu .cmp (.reg register) (.imm 0), .jcc .e (labelName target)])
  /-- A return without a value. -/
  | ret : CommandCode stmt (.ret none) (.alu .xor (.reg .rax) (.reg .rax) :: epilogueCode context)
  /-- A return of a value. -/
  | retValue {value : Access} {register : Register} {pool : ScratchPool} {code : List Instruction}
      (hreads : Reads context session value {} register pool code) :
      CommandCode stmt (.ret (some value))
        (code ++ .mov (.reg .rax) (.reg register) :: epilogueCode context)
  /-- The end of the process. -/
  | exit (code : Int32) :
      CommandCode stmt (.exit code)
        [.alu .xor (.reg .rax) (.reg .rax), .mov (.reg .rdi) (.imm (Int64.ofInt code.toInt)),
          .call exitRoutine]

/-- The code of statements one after another. -/
inductive StmtsCode : List Inst → List Instruction → Prop
  /-- No statements. -/
  | nil : StmtsCode [] []
  /-- One statement, and the others. -/
  | cons {stmt : Inst} {stmts : List Inst} {command : Command} {code rest : List Instruction}
      (hcommand : context.body.command? stmt = some command)
      (hcode : CommandCode context session stmt command code) (hrest : StmtsCode stmts rest) :
      StmtsCode (stmt :: stmts) (code ++ rest)

end

section

variable {context : Context} {state after : State} {last : Session}

/-- A step that looks a record up. -/
theorem Gives.record {α : Type} {inst : Inst} {record : Record} {next : Record → Emit α} {a : α}
    (h : Gives (read >>= fun found : Context => liftM (found.body.record inst) >>= next) context
      state a after) (hrecord : context.body.records[inst.index]? = some record) :
    Gives (next record) context state a after := by
  obtain ⟨_, _, hread, h⟩ := h.bind
  cases hread
  obtain ⟨found, _, hfound, h⟩ := h.bind
  obtain ⟨hok, rfl⟩ := hfound.lift
  rw [Body.record_eq hrecord] at hok
  cases hok
  exact h

/-- A load is read. -/
theorem Gives.valueLoad {depth : Nat} {access : Access} {register : Register}
    (h : Gives (Emission.value (depth + 1) access.inst) context state register after)
    (hrecord : context.body.records[access.inst.index]? = some (.load access.loc))
    (hlast : after.session.Grows last) :
    ∃ code, Added state after code ∧
      Reads context last access state.scratch register after.scratch code :=
  (h.record hrecord).readAccess hlast

/-- **VALUES BECOME THEIR CODE**, and leave their result in a register. -/
theorem Gives.value {depth : Nat} {value : Value} {register : Register}
    (h : Gives (Emission.value (depth + 2) value.inst) context state register after)
    (hvalue : context.body.IsValue value) (hlast : after.session.Grows last)
    (hfree : state.scratch = {}) :
    ∃ code, Added state after code ∧ ValueCode context last value register code := by
  cases value with
  | load access =>
      obtain ⟨code, hadded, hreads⟩ := h.valueLoad hvalue hlast
      rw [hfree] at hreads
      exact ⟨code, hadded, .load hreads⟩
  | param inst index =>
      replace h := h.record hvalue
      obtain ⟨_, _, hread, h⟩ := h.bind
      cases hread
      obtain ⟨offset, _, hoffset, h⟩ := h.bind
      obtain ⟨hparam, rfl⟩ := hoffset.lift
      cases offset with
      | none => exact h.malformed.elim
      | some offset =>
          obtain ⟨out, s₁, htake, h⟩ := h.bind
          obtain ⟨_, s₂, hpush, h⟩ := h.bind
          cases h
          obtain ⟨added₁, rfl⟩ := htake.takeFirst (by rw [hfree])
          exact ⟨_, added₁.trans hpush.push.1, .param hparam⟩
  | unary inst op operand =>
      replace h := h.record hvalue.1
      obtain ⟨source, s₁, hoperand, h⟩ := h.bind
      obtain ⟨_, s₂, hrelease, h⟩ := h.bind
      obtain ⟨added₂, scratch₂⟩ := hrelease.release
      have hfirst : s₂.scratch.firstFree = true := by
        obtain ⟨_, -, hreads⟩ := hoperand.valueLoad hvalue.2 (Session.Grows.refl _)
        rw [hfree] at hreads
        rw [scratch₂, hreads.release]
      obtain ⟨added₃, rfl⟩ := h.unaryInto hfirst
      have hlater := added₂.trans added₃
      obtain ⟨code, added₁, hreads⟩ := hoperand.valueLoad hvalue.2 (hlater.session.trans hlast)
      rw [hfree] at hreads
      exact ⟨_, added₁.trans hlater, .unary hreads⟩
  | binary inst op lhs rhs =>
      replace h := h.record hvalue.1
      obtain ⟨left, s₁, hleft, h⟩ := h.bind
      obtain ⟨right, s₂, hright, h⟩ := h.bind
      obtain ⟨_, s₃, hrelease₁, h⟩ := h.bind
      obtain ⟨_, s₄, hrelease₂, h⟩ := h.bind
      obtain ⟨added₃, scratch₃⟩ := hrelease₁.release
      obtain ⟨added₄, scratch₄⟩ := hrelease₂.release
      -- the operand gives back its scratch register before the result takes one
      have hfirst : s₄.scratch.firstFree = true := by
        obtain ⟨_, -, hreads⟩ := hright.valueLoad hvalue.2.2 (Session.Grows.refl s₂.session)
        obtain ⟨_, hadded, -⟩ := hright.valueLoad hvalue.2.2 (Session.Grows.refl s₂.session)
        obtain ⟨_, -, hreads'⟩ := hleft.valueLoad hvalue.2.1 hadded.session
        rw [hfree] at hreads'
        rw [scratch₄, scratch₃]
        exact hreads'.release_both hreads
      obtain ⟨added₅, rfl⟩ := h.binaryInto hfirst
      have hbehind := added₃.trans (added₄.trans added₅)
      obtain ⟨code', added₂, hreads'⟩ := hright.valueLoad hvalue.2.2 (hbehind.session.trans hlast)
      obtain ⟨code, added₁, hreads⟩ := hleft.valueLoad hvalue.2.1
        (added₂.session.trans (hbehind.session.trans hlast))
      rw [hfree] at hreads
      exact ⟨_, added₁.trans (added₂.trans hbehind), .binary hreads hreads'⟩
  | call inst target args isExternal saved =>
      replace h := h.record hvalue
      obtain ⟨_, s₁, hcall, h⟩ := h.bind
      obtain ⟨out, s₂, htake, h⟩ := h.bind
      obtain ⟨_, s₃, hmove, h⟩ := h.bind
      cases h
      have hfirst : s₁.scratch.firstFree = true := by
        obtain ⟨_, -, -, hscratch⟩ := hcall.emitCall (Session.Grows.refl _) hfree
        rw [hscratch]
      obtain ⟨added₂, rfl⟩ := htake.takeFirst hfirst
      have hbehind := added₂.trans hmove.push.1
      obtain ⟨code, added₁, hcall, -⟩ := hcall.emitCall (hbehind.session.trans hlast) hfree
      exact ⟨_, added₁.trans hbehind, .call hcall⟩

/-- A body with a value has records. -/
theorem records_size {body : Body} {value : Value} (h : body.IsValue value) :
    ∃ depth, body.records.size = depth + 1 := by
  have hlt : value.inst.index < body.records.size := by
    cases value with
    | load access => exact Body.lt_size h
    | param inst index => exact Body.lt_size h
    | unary inst op operand => exact Body.lt_size h.1
    | binary inst op lhs rhs => exact Body.lt_size h.1
    | call inst target args isExternal saved => exact Body.lt_size h
  exact ⟨body.records.size - 1, by omega⟩

/-- Computing a value takes a depth that every body has. -/
theorem Gives.valueOf {value : Value} {register : Register}
    (h : Gives (Emission.valueOf value.inst) context state register after)
    (hvalue : context.body.IsValue value) (hlast : after.session.Grows last)
    (hfree : state.scratch = {}) :
    ∃ code, Added state after code ∧ ValueCode context last value register code := by
  obtain ⟨_, _, hread, h⟩ := h.bind
  cases hread
  obtain ⟨depth, hdepth⟩ := records_size hvalue
  rw [hdepth] at h
  exact h.value hvalue hlast hfree

/-- A load that is a value of its own is read. -/
theorem Gives.valueOfLoad {access : Access} {register : Register}
    (h : Gives (Emission.valueOf access.inst) context state register after)
    (hrecord : context.body.records[access.inst.index]? = some (.load access.loc))
    (hlast : after.session.Grows last) :
    ∃ code, Added state after code ∧
      Reads context last access state.scratch register after.scratch code := by
  obtain ⟨_, _, hread, h⟩ := h.bind
  cases hread
  exact h.valueLoad hrecord hlast

/-- A result is stored in the place of its destination. -/
theorem Gives.store {stmt : Inst} {dest : Loc} {register : Register}
    (h : Gives (Emission.store stmt dest register) context state () after)
    (hlast : after.session.Grows last) :
    ∃ operand, Added state after (storeCode operand register) ∧
      Places context last ⟨stmt, dest⟩ operand := by
  obtain ⟨_, _, hread, h⟩ := h.bind
  cases hread
  obtain ⟨location, _, hlocation, h⟩ := h.bind
  obtain ⟨-, rfl⟩ := hlocation.lift
  split at h
  · exact h.malformed.elim
  · obtain ⟨operand, s₁, hstorage, h⟩ := h.bind
    obtain ⟨_, s₂, hrelease, h⟩ := h.bind
    have added₂ := hrelease.release.1
    have added₃ := h.pushIf.1
    obtain ⟨rfl, hplaces⟩ :=
      hstorage.storage (added₂.session.trans (added₃.session.trans hlast))
    exact ⟨operand, added₂.trans added₃, hplaces⟩

/-- The end of a method becomes its code. -/
theorem Gives.epilogue (h : Gives Emission.epilogue context state () after) :
    Added state after (epilogueCode context) := by
  obtain ⟨_, _, hread, h⟩ := h.bind
  cases hread
  obtain ⟨_, s₁, hpops, h⟩ := h.bind
  obtain ⟨_, s₂, hmove, h⟩ := h.bind
  obtain ⟨_, s₃, hpop, h⟩ := h.bind
  exact hpops.forM_push.1.trans (hmove.push.1.trans (hpop.push.1.trans h.push.1))

/-- **STATEMENTS BECOME THEIR CODE**. -/
theorem Gives.statement {stmt : Inst} {command : Command}
    (h : Gives (Emission.statement stmt) context state () after)
    (hcommand : context.body.command? stmt = some command) (hlast : after.session.Grows last)
    (hfree : state.scratch = {}) :
    ∃ code, Added state after code ∧ CommandCode context last stmt command code := by
  replace hcommand := Body.command?_eq_some.mp hcommand
  -- one case for each command: the code is that of its steps, one after another
  cases command with
  | save value dest =>
      replace h := h.record hcommand.1
      obtain ⟨register, s₁, hvalue, h⟩ := h.bind
      obtain ⟨operand, added₂, hplaces⟩ := h.store hlast
      obtain ⟨code, added₁, hvalue⟩ :=
        hvalue.valueOf hcommand.2 (added₂.session.trans hlast) hfree
      exact ⟨_, added₁.trans added₂, .save hvalue hplaces⟩
  | call target args isExternal saved =>
      replace h := h.record hcommand
      obtain ⟨code, hadded, hcall, -⟩ := h.emitCall hlast hfree
      exact ⟨code, hadded, .call hcall⟩
  | use loc =>
      cases h.record hcommand
      exact ⟨[], Added.refl _, .use loc⟩
  | label place => exact ⟨_, (h.record hcommand).push.1, .label place⟩
  | jump target => exact ⟨_, (h.record hcommand).push.1, .jump target⟩
  | branch cond target =>
      replace h := h.record hcommand.1
      obtain ⟨register, s₁, hcond, h⟩ := h.bind
      obtain ⟨_, s₂, hrelease, h⟩ := h.bind
      obtain ⟨_, s₃, hcompare, h⟩ := h.bind
      have hbehind := hrelease.release.1.trans (hcompare.push.1.trans h.push.1)
      obtain ⟨code, added₁, hreads⟩ :=
        hcond.valueOfLoad hcommand.2 (hbehind.session.trans hlast)
      rw [hfree] at hreads
      exact ⟨_, added₁.trans hbehind, .branch hreads⟩
  | ret value =>
      cases value with
      | none =>
          replace h := h.record hcommand
          obtain ⟨_, s₁, hclear, h⟩ := h.bind
          exact ⟨_, hclear.push.1.trans h.epilogue, .ret⟩
      | some value =>
          replace h := h.record hcommand.1
          obtain ⟨register, s₁, hvalue, h⟩ := h.bind
          obtain ⟨_, s₂, hrelease, h⟩ := h.bind
          obtain ⟨_, s₃, hmove, h⟩ := h.bind
          have hbehind := hrelease.release.1.trans (hmove.push.1.trans h.epilogue)
          obtain ⟨code, added₁, hreads⟩ :=
            hvalue.valueOfLoad hcommand.2 (hbehind.session.trans hlast)
          rw [hfree] at hreads
          exact ⟨_, added₁.trans hbehind, .retValue hreads⟩
  | exit code =>
      replace h := h.record hcommand
      obtain ⟨_, s₁, hextern, h⟩ := h.bind
      cases hextern
      obtain ⟨_, s₂, hclear, h⟩ := h.bind
      obtain ⟨_, s₃, hmove, h⟩ := h.bind
      have hadded := hclear.push.1.trans (hmove.push.1.trans h.push.1)
      exact ⟨_, ⟨hadded.code, (Session.grows_addExtern _ _).trans hadded.session⟩, .exit code⟩

/-- Statements become their code, one after the other. -/
theorem Gives.statements {stmts : List Inst}
    (h : Gives (Emission.statements stmts) context state () after)
    (hcommands : ∀ stmt ∈ stmts, ∃ command, context.body.command? stmt = some command)
    (hlast : after.session.Grows last) (hfree : state.scratch = {}) :
    ∃ code, Added state after code ∧ StmtsCode context last stmts code := by
  induction stmts generalizing state with
  | nil =>
      cases h
      exact ⟨[], Added.refl _, .nil⟩
  | cons stmt stmts ih =>
      rw [Emission.statements, forM_cons] at h
      obtain ⟨_, s₁, hfirst, hrest⟩ := h.bind
      -- between statements all scratch registers are given back
      obtain ⟨_, s₂, hstmt, hreset⟩ := hfirst.bind
      cases hreset
      obtain ⟨rest, added₂, hrest⟩ :=
        ih hrest (fun other hother => hcommands other (List.mem_cons_of_mem _ hother)) rfl
      obtain ⟨command, hcommand⟩ := hcommands stmt List.mem_cons_self
      obtain ⟨code, added₁, hcode⟩ :=
        hstmt.statement hcommand (added₂.session.trans hlast) hfree
      have hadded : Added state { s₂ with scratch := {} } code := ⟨added₁.code, added₁.session⟩
      exact ⟨_, hadded.trans added₂, .cons hcommand hcode hrest⟩

/-! ## Methods -/

/-- The code at the start of a method. -/
def prologueCode (context : Context) (size : Int) : List Instruction :=
  .push (.reg .rbp) :: .mov (.reg .rbp) (.reg .rsp) ::
  ((if 0 < size then [.alu .sub (.reg .rsp) (.imm (Int64.ofInt size))] else []) ++
  ((context.frame.params.zip Register.arguments).map (fun param =>
    .mov (.frame param.1) (.reg param.2)) ++ pushAll context.calleeSaved))

/-- The start of a method becomes its code. -/
theorem Gives.prologue (h : Gives Emission.prologue context state () after) :
    ∃ size, context.frame.allocationSize context.calleeSaved.length = .ok size ∧
      Added state after (prologueCode context size) ∧ after.scratch = state.scratch := by
  obtain ⟨_, _, hread, h⟩ := h.bind
  cases hread
  obtain ⟨size, _, hsize, h⟩ := h.bind
  obtain ⟨hok, rfl⟩ := hsize.lift
  obtain ⟨_, s₁, hpush, h⟩ := h.bind
  obtain ⟨_, s₂, hmove, h⟩ := h.bind
  obtain ⟨s₃, hgrow, h⟩ := h.ifThen
  obtain ⟨_, s₄, hparams, h⟩ := h.bind
  obtain ⟨added₁, scratch₁⟩ := hpush.push
  obtain ⟨added₂, scratch₂⟩ := hmove.push
  obtain ⟨added₃, scratch₃⟩ := hgrow.pushIf
  obtain ⟨added₄, scratch₄⟩ := hparams.forM_push
  obtain ⟨added₅, scratch₅⟩ := h.forM_push
  refine ⟨size, hok, added₁.trans (added₂.trans (added₃.trans (added₄.trans added₅))), ?_⟩
  rw [scratch₅, scratch₄, scratch₃, scratch₂, scratch₁]

end

/-- A terminator at the end keeps control from leaving the end of a body. -/
theorem fallsOff_eq {body : Body} (wf : WellFormed body) : fallsOff body = .ok false := by
  obtain ⟨stmt, command, hlast, hcommand, hends⟩ := wf.ending
  obtain ⟨record, hrecord, -, -, -, hterminator⟩ := Body.record_command hcommand
  rw [hends] at hterminator
  simp only [fallsOff, hlast, Body.record_eq hrecord, bind, Except.bind, hterminator]
  rfl

/-- **METHODS BECOME THEIR CODE**: the code of a method sets the frame up and
    goes on with the code of the statements. -/
theorem emitMethod_code {body : Body} (wf : WellFormed body) {symbols : SymbolPool}
    {session last : Session} {function : Function}
    (h : emitMethod body symbols session = .ok (.ok function, last)) :
    ∃ name frame size code, Frame.compute body = .ok frame ∧
      frame.allocationSize body.bindings.calleeSaved.toList.length = .ok size ∧
      function.code = prologueCode ⟨body, symbols, frame, name⟩ size ++ code ∧
      StmtsCode ⟨body, symbols, frame, name⟩ last body.stmts code := by
  obtain ⟨name, -, h⟩ := Checked.bind_eq_ok h
  obtain ⟨frame, hframe, h⟩ := Checked.bind_eq_ok h
  obtain ⟨⟨result, state⟩, hwhole, h⟩ := Checked.bind_eq_ok h
  cases result with
  | error error => cases h
  | ok _ =>
      cases h
      -- prologue, statements, and nothing behind them since control does not fall off
      replace hwhole : Gives wholeMethod ⟨body, symbols, frame, name⟩ { session } () state := hwhole
      obtain ⟨_, _, hread, hwhole⟩ := hwhole.bind
      cases hread
      obtain ⟨_, s₁, hprologue, hwhole⟩ := hwhole.bind
      obtain ⟨_, s₂, hstmts, hwhole⟩ := hwhole.bind
      obtain ⟨falls, _, hfalls, hwhole⟩ := hwhole.bind
      obtain ⟨hfalls, rfl⟩ := hfalls.lift
      rw [fallsOff_eq wf] at hfalls
      cases hfalls
      cases hwhole
      obtain ⟨size, hsize, added₁, scratch₁⟩ := hprologue.prologue
      obtain ⟨code, added₂, hcode⟩ := hstmts.statements (fun stmt hstmt => by
        obtain ⟨command, hcommand, -⟩ := wf.commands stmt hstmt
        exact ⟨command, hcommand⟩) (Session.Grows.refl _) scratch₁
      refine ⟨name, frame, size, code, hframe, hsize, ?_, hcode⟩
      have hall := (added₁.trans added₂).code
      exact hall

end Emission

end DecafBackend
