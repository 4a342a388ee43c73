import DecafBackend.Proofs.FitBodies
import DecafBackend.Proofs.StackDiscipline

/-! # Methods keep stack discipline

    Whatever path control takes through the code of a method, the stack is aligned at
    calls, slots are not written by pushes, every statement starts at the depth that
    the prologue left, and the caller finds everything where it was.

    * `Body.Emittable` — bodies before and after allocation
    * `Emittable.tame` — none of them binds the stack pointer or the frame pointer
    * `Arrives` — what emission has produced when it comes to a statement
    * `emitMethod_parts` — the code of a method, in parts
    * `emitMethod_stack_discipline` — the main result -/

namespace DecafBackend

/-! ## Bodies that are emitted -/

/-- Bodies as they come to emission. -/
inductive Body.Emittable : Body → Prop
  /-- No registers are allocated. -/
  | unbound {body : Body}
      (hcommands : ∀ stmt ∈ body.stmts, ∃ command, body.command? stmt = some command)
      (hunbound : body.bindings = {})
      (hunsaved : ∀ {stmt : Inst} {command : Command}, stmt ∈ body.stmts →
        body.command? stmt = some command → command.saved = []) : Emittable body
  /-- Registers are allocated in a well-formed body. -/
  | wellFormed {first body : Body} {palette : List Register} {summary : AllocationSummary}
      (wf : WellFormed first) (hok : allocateRegisters palette first = .ok (summary, body)) :
      Emittable body
  /-- Registers are allocated, perhaps once more. -/
  | allocated {first body : Body} {palette : List Register} {summary : AllocationSummary}
      (hfirst : Emittable first) (hok : allocateRegisters palette first = .ok (summary, body)) :
      Emittable body

/-- What a call preserves with other registers to preserve. -/
theorem Command.mem_saved_withSaved {saved : Inst → List Register} {stmt : Inst} {command : Command}
    {register : Register} (h : register ∈ (command.withSaved saved stmt).saved) :
    ∃ call, command.callInst? stmt = some call ∧ register ∈ saved call := by
  cases command with
  | save value dest =>
      cases value with
      | call inst => exact ⟨inst, rfl, h⟩
      | load | param | unary | binary => cases h
  | call => exact ⟨stmt, rfl, h⟩
  | use | label | jump | branch | ret | exit => cases h

/-- What a call preserves stands in its record. -/
theorem Command.saved_of_callInst {body : Body} {stmt call : Inst} {command : Command}
    (hcommand : body.command? stmt = some command) (hcall : command.callInst? stmt = some call) :
    (body.records[call.index]?.map Record.saved).getD [] = command.saved := by
  have hparts := Body.command?_eq_some.mp hcommand
  cases command with
  | save value dest =>
      cases value with
      | call inst =>
          cases hcall
          rw [hparts.2]
          rfl
      | load | param | unary | binary => cases hcall
  | call =>
      cases hcall
      rw [hparts]
      rfl
  | use | label | jump | branch | ret | exit => cases hcall

namespace Body

variable {body after : Body} {palette : List Register} {summary : AllocationSummary}

/-- Allocation rewrites a body with registers that can be allocated. -/
theorem allocateRegisters_rewrites (h : allocateRegisters palette body = .ok (summary, after)) :
    ∃ (graph : InterferenceGraph) (coloring : Coloring) (bindings : Bindings),
      after = rewritten body graph coloring bindings ∧
      (∀ (web : WebKey) (register : Register), coloring.colors[web]? = some register →
        register.isAllocatable = true) ∧
      (∀ (access : Access) (register : Register), bindings.get? access = some register →
        register.isAllocatable = true) ∧
      ∀ register ∈ bindings.calleeSaved, register.isAllocatable = true := by
  obtain ⟨liveness, -, h⟩ := Checked.bind_eq_ok h
  obtain ⟨webs, -, h⟩ := Checked.bind_eq_ok h
  obtain ⟨graph, -, h⟩ := Checked.bind_eq_ok h
  obtain ⟨coloring, hcoloring, h⟩ := Checked.bind_eq_ok h
  obtain ⟨bindings, hbindings, h⟩ := Checked.bind_eq_ok h
  obtain ⟨nodes, -, hcoloring⟩ := Checked.bind_eq_ok hcoloring
  have hpalette : ∀ (web : WebKey) (register : Register),
      coloring.colors[web]? = some register → register ∈ usablePalette palette := by
    rw [← Checked.pure_eq_ok hcoloring]
    exact fun _ _ => (Coloring.foldl_select_proper Coloring.Proper.start _).palette
  -- the binding of webs keeps that all that is bound is of the palette
  have hbound : (∀ access register, bindings.get? access = some register →
      register ∈ usablePalette palette) ∧ bindings.Preserves (usablePalette palette) := by
    refine Checked.foldlM_invariant (fun bindings : Bindings => (∀ access register,
      bindings.get? access = some register → register ∈ usablePalette palette) ∧
        bindings.Preserves (usablePalette palette)) hbindings ⟨?_, Bindings.Preserves.start⟩ ?_
    · intro access register hnone
      cases hnone
    · intro before pair next hpair hbefore hstep
      obtain ⟨web, -, hweb⟩ := Checked.bind_eq_ok hstep
      have hcolor := hpalette _ _ (Std.ExtTreeMap.mem_toList_iff_getElem?_eq_some.mp hpair)
      rw [← Checked.pure_eq_ok hweb]
      refine ⟨fun access register hget => ?_, hbefore.2.bindWeb web hcolor⟩
      rw [Bindings.get?_bindWeb] at hget
      split at hget
      · cases hget
        exact hcolor
      · exact hbefore.1 access register hget
  refine ⟨graph, coloring, bindings, ?_, ?_, ?_, ?_⟩
  · cases h
    rfl
  · exact fun web register hcolor => (mem_usablePalette (hpalette web register hcolor)).2
  · exact fun access register hget => (mem_usablePalette (hbound.1 access register hget)).2
  · exact fun register hmem => (mem_usablePalette (hbound.2.among register hmem).1).2

/-- A call preserves what it has preserved, or what a change says. -/
theorem savedAfter_cases {α : Type} {registers : α → List Register} (saved : Inst → List Register)
    (changes : List (Inst × α)) (call : Inst) :
    savedAfter registers saved changes call = saved call ∨
      ∃ change, savedAfter registers saved changes call = registers change := by
  induction changes generalizing saved with
  | nil => exact Or.inl rfl
  | cons change changes ih =>
      rcases ih (fun inst => if inst = change.1 then registers change.2 else saved inst)
        with hkept | hnew
      · split at hkept
        · exact Or.inr ⟨change.2, hkept⟩
        · exact Or.inl hkept
      · exact Or.inr hnew

/-- A rewritten body is tame, if what its calls preserved before is given up or can be
    allocated. -/
theorem tame_rewritten {graph : InterferenceGraph} {coloring : Coloring} {bindings : Bindings}
    (hcommands : ∀ stmt ∈ body.stmts, ∃ command, body.command? stmt = some command)
    (hcolors : ∀ (web : WebKey) (register : Register), coloring.colors[web]? = some register →
      register.isAllocatable = true)
    (hbound : ∀ (access : Access) (register : Register), bindings.get? access = some register →
      register.isAllocatable = true)
    (hpreserved : ∀ register ∈ bindings.calleeSaved, register.isAllocatable = true)
    (hsaved : ∀ {stmt call : Inst} {command : Command}, stmt ∈ body.stmts →
      body.command? stmt = some command → command.callInst? stmt = some call →
        (∀ register ∈ command.saved, register.isAllocatable = true) ∨
          ∃ survivors, graph.acrossCalls[call]? = some survivors) :
    (rewritten body graph coloring bindings).Tame := by
  have hresaved := rewritten_resaved body graph coloring bindings
  have hbindings := bindings_rewritten body graph coloring bindings
  have hacross : ∀ {live register}, register ∈ coloring.savedAcross live →
      register.isAllocatable = true := by
    intro live register hmem
    obtain ⟨key, -, hcolor, -⟩ := Coloring.mem_savedAcross.mp hmem
    exact hcolors key register hcolor
  refine ⟨?_, ?_, ?_, ?_⟩
  · intro stmt hstmt
    obtain ⟨command, hcommand⟩ := hcommands stmt (hresaved.stmts ▸ hstmt)
    rw [hresaved.command?, hcommand]
    exact ⟨_, rfl⟩
  · intro access register hget
    exact hbound access register (hbindings ▸ hget)
  · intro register hmem
    exact hpreserved register (hbindings ▸ hmem)
  · intro stmt command hstmt hcommand register hmem
    obtain ⟨old, hold, rfl⟩ := hresaved.command_of hcommand
    -- a call that is live across something is given new registers, any other keeps its own
    obtain ⟨call, hcall, hmem⟩ := Command.mem_saved_withSaved hmem
    rcases hsaved (hresaved.stmts ▸ hstmt) hold hcall with hbefore | ⟨survivors, hsurvivors⟩
    · rcases savedAfter_cases _ graph.acrossCalls.toList call with hkept | ⟨live, hnew⟩
      · rw [savedAtCalls, hkept, Command.saved_of_callInst hold hcall] at hmem
        exact hbefore register hmem
      · rw [savedAtCalls, hnew] at hmem
        exact hacross hmem
    · rw [savedAtCalls_eq body graph coloring hsurvivors] at hmem
      exact hacross hmem

/-- Allocation in a well-formed body decides what every call preserves. -/
theorem tame_of_wellFormed (wf : WellFormed body)
    (h : allocateRegisters palette body = .ok (summary, after)) : after.Tame := by
  obtain ⟨_, flow, liveness, webs, graph, coloring, bindings, heq, found⟩ :=
    allocateRegisters_eq wf palette
  cases h.symm.trans heq
  have hcolors : ∀ (web : WebKey) (register : Register), coloring.colors[web]? = some register →
      register.isAllocatable = true :=
    fun web register hcolor => (mem_usablePalette (found.proper.palette hcolor)).2
  refine tame_rewritten ?_ hcolors ?_ ?_ ?_
  · intro stmt hstmt
    obtain ⟨command, hcommand, -⟩ := wf.commands stmt hstmt
    exact ⟨command, hcommand⟩
  · intro access register hget
    obtain ⟨key, hcolor, -⟩ := found.binds.holds hget
    exact hcolors key register hcolor
  · intro register hmem
    exact (mem_usablePalette (found.preserves.among register hmem).1).2
  · intro stmt call command hstmt hcommand hcall
    exact Or.inr (found.survivors wf hstmt hcommand hcall)

/-- **NO BODY BINDS** the stack pointer or the frame pointer. -/
theorem Emittable.tame (h : body.Emittable) : body.Tame := by
  induction h with
  | @unbound body hcommands hunbound hunsaved =>
      refine ⟨hcommands, ?_, ?_, ?_⟩
      · intro access register hget
        rw [hunbound] at hget
        cases hget
      · intro register hmem
        rw [hunbound] at hmem
        exact absurd hmem Std.ExtTreeSet.not_mem_empty
      · intro stmt command hstmt hcommand register hmem
        rw [hunsaved hstmt hcommand] at hmem
        cases hmem
  | wellFormed wf hok => exact tame_of_wellFormed wf hok
  | allocated _ hok ih =>
      obtain ⟨graph, coloring, bindings, rfl, hcolors, hbound, hpreserved⟩ :=
        allocateRegisters_rewrites hok
      exact tame_rewritten ih.commands hcolors hbound hpreserved
        fun hstmt hcommand _ => Or.inl (ih.saved hstmt hcommand)

end Body

namespace Emission

/-! ## The code of a method in parts -/

section

variable {context : Context} {session : Session} {state last : State}

/-- The code of some statements is made before that of those behind them. -/
theorem Gives.statements_append {before after : List Inst}
    (h : Gives (Emission.statements (before ++ after)) context state () last) :
    ∃ middle, Gives (Emission.statements before) context state () middle ∧
      Gives (Emission.statements after) context middle () last := by
  induction before generalizing state with
  | nil => exact ⟨state, rfl, h⟩
  | cons stmt before ih =>
      rw [List.cons_append, Emission.statements, forM_cons] at h
      obtain ⟨_, next, hfirst, hrest⟩ := h.bind
      obtain ⟨middle, hbefore, hafter⟩ := ih hrest
      refine ⟨middle, ?_, hafter⟩
      rw [Emission.statements, forM_cons]
      exact hfirst.then hbefore

/-- All scratch registers are free behind a statement. -/
theorem Gives.statements_scratch {stmts : List Inst}
    (h : Gives (Emission.statements stmts) context state () last) (hfree : state.scratch = {}) :
    last.scratch = {} := by
  induction stmts generalizing state with
  | nil =>
      cases h
      exact hfree
  | cons stmt stmts ih =>
      rw [Emission.statements, forM_cons] at h
      obtain ⟨_, next, hfirst, hrest⟩ := h.bind
      obtain ⟨_, _, -, hreset⟩ := hfirst.bind
      cases hreset
      exact ih hrest rfl

/-- The code of statements consists of the codes of the statements. -/
theorem StmtsCode.parts {stmts : List Inst} {code : List Instruction}
    (h : StmtsCode context session stmts code) :
    ∃ codes : List (List Instruction), code = codes.flatten ∧
      ∀ part ∈ codes, ∃ stmt ∈ stmts, ∃ command, context.body.command? stmt = some command ∧
        CommandCode context session stmt command part := by
  induction h with
  | nil => exact ⟨[], rfl, List.forall_mem_nil _⟩
  | @cons stmt stmts command code rest hcommand hcode _ ih =>
      obtain ⟨codes, rfl, hcodes⟩ := ih
      refine ⟨code :: codes, rfl, List.forall_mem_cons.mpr ⟨?_, fun part hpart => ?_⟩⟩
      · exact ⟨stmt, List.mem_cons_self, command, hcommand, hcode⟩
      · obtain ⟨other, hother, hpart⟩ := hcodes part hpart
        exact ⟨other, List.mem_cons_of_mem _ hother, hpart⟩

end

/-- The code that emission has produced when the prologue and some statements are
    emitted. -/
def Arrives (body : Body) (symbols : SymbolPool) (session : Session) (before : List Inst)
    (front : List Instruction) : Prop :=
  ∃ name frame state, symbols.text body.name = .ok name ∧ Frame.compute body = .ok frame ∧
    Gives (prologue >>= fun _ => statements before) ⟨body, symbols, frame, name⟩ { session } ()
      state ∧ state.code.toList = front

/-- The code behind the last statement. -/
inductive EndingCode (context : Context) : List Instruction → Prop
  /-- None, if control does not get there. -/
  | none : EndingCode context []
  /-- A return without a value. -/
  | ret : EndingCode context (.alu .xor (.reg .rax) (.reg .rax) :: epilogueCode context)

/-- A part of the code of a method: that of a statement, or what stands behind the
    last one. -/
def IsPart (context : Context) (session : Session) (part : List Instruction) : Prop :=
  (∃ stmt ∈ context.body.stmts, ∃ command, context.body.command? stmt = some command ∧
    CommandCode context session stmt command part) ∨ EndingCode context part

/-- **METHODS IN PARTS**: the code of a method consists of the prologue, the codes of
    some statements, those of the others, and what stands behind the last one. -/
theorem emitMethod_parts {body : Body} (tame : body.Tame) {symbols : SymbolPool}
    {session last : Session} {function : Function}
    (h : emitMethod body symbols session = .ok (.ok function, last)) {before after : List Inst}
    (hsplit : body.stmts = before ++ after) :
    ∃ (name : String) (frame : Frame) (size : Int) (done later : List (List Instruction)),
      Frame.compute body = .ok frame ∧
      frame.allocationSize body.bindings.calleeSaved.toList.length = .ok size ∧
      Arrives body symbols session before
        (prologueCode ⟨body, symbols, frame, name⟩ size ++ done.flatten) ∧
      function.code =
        prologueCode ⟨body, symbols, frame, name⟩ size ++ (done ++ later).flatten ∧
      ∀ part ∈ done ++ later, IsPart ⟨body, symbols, frame, name⟩ last part := by
  obtain ⟨name, hname, h⟩ := Checked.bind_eq_ok h
  obtain ⟨frame, hframe, h⟩ := Checked.bind_eq_ok h
  obtain ⟨⟨result, state⟩, hwhole, h⟩ := Checked.bind_eq_ok h
  cases result with
  | error error => cases h
  | ok _ =>
      cases h
      replace hwhole : Gives wholeMethod ⟨body, symbols, frame, name⟩ { session } () state := hwhole
      obtain ⟨_, _, hread, hwhole⟩ := hwhole.bind
      cases hread
      obtain ⟨_, s₁, hprologue, hwhole⟩ := hwhole.bind
      obtain ⟨_, s₃, hstmts, hwhole⟩ := hwhole.bind
      obtain ⟨falls, _, hfalls, hwhole⟩ := hwhole.bind
      obtain ⟨-, rfl⟩ := hfalls.lift
      have hending : ∃ ending, Added s₃ state ending ∧
          EndingCode ⟨body, symbols, frame, name⟩ ending := by
        cases falls with
        | false =>
            cases hwhole
            exact ⟨[], Added.refl _, .none⟩
        | true =>
            obtain ⟨_, s₄, hclear, hwhole⟩ := hwhole.bind
            exact ⟨_, hclear.push.1.trans hwhole.epilogue, .ret⟩
      obtain ⟨ending, added₄, hending⟩ := hending
      obtain ⟨size, hsize, added₁, scratch₁⟩ := hprologue.prologue
      replace hstmts : Gives (statements (before ++ after)) _ s₁ () s₃ := hsplit ▸ hstmts
      obtain ⟨s₂, hbefore, hafter⟩ := hstmts.statements_append
      have hcommands : ∀ stmt ∈ before ++ after, ∃ command, body.command? stmt = some command :=
        hsplit ▸ tame.commands
      obtain ⟨hfirst, hsecond⟩ := List.forall_mem_append.mp hcommands
      have free₂ := hbefore.statements_scratch scratch₁
      obtain ⟨code', added₃, hcode'⟩ := hafter.statements hsecond added₄.session free₂
      obtain ⟨code, added₂, hcode⟩ :=
        hbefore.statements hfirst (added₃.session.trans added₄.session) scratch₁
      obtain ⟨done, rfl, hdone⟩ := hcode.parts
      obtain ⟨later, rfl, hlater⟩ := hcode'.parts
      -- the ending of a body that falls off its end is one part more
      refine ⟨name, frame, size, done, later ++ [ending], hframe, hsize, ?_, ?_, ?_⟩
      · exact ⟨name, frame, s₂, hname, hframe, hprologue.then hbefore, (added₁.trans added₂).code⟩
      · have hall := (added₁.trans (added₂.trans (added₃.trans added₄))).code
        simp only [List.flatten_append, List.flatten_singleton]
        exact hall
      · intro part hpart
        rcases List.mem_append.mp hpart with hpart | hpart
        · obtain ⟨stmt, hstmt, hcode⟩ := hdone part hpart
          exact Or.inl ⟨stmt, hsplit ▸ List.mem_append_left _ hstmt, hcode⟩
        rcases List.mem_append.mp hpart with hpart | hpart
        · obtain ⟨stmt, hstmt, hcode⟩ := hlater part hpart
          exact Or.inl ⟨stmt, hsplit ▸ List.mem_append_right _ hstmt, hcode⟩
        · exact Or.inr (List.mem_singleton.mp hpart ▸ hending)

/-! ## Paths through a method -/

section

variable {context : Context} {session : Session} {part : List Instruction}

/-- A part places labels at its start only. -/
theorem IsPart.labelsAlone (h : IsPart context session part) : LabelsAlone part := by
  rcases h with ⟨stmt, -, command, -, hcode⟩ | hending
  · by_cases hlabel : ∀ place, command ≠ .label place
    · exact labelsAlone_of_unlabelled (hcode.unlabelled hlabel)
    · rw [not_forall] at hlabel
      obtain ⟨place, hplace⟩ := hlabel
      obtain rfl := not_not.mp hplace
      cases hcode
      intro name hmem
      rw [List.mem_singleton.mp hmem]
  · refine labelsAlone_of_unlabelled ?_
    cases hending with
    | none => exact unlabelled_nil
    | ret => simp [unlabelled_epilogueCode]

/-- Control that is in the frame passes a part and is in the frame behind it. -/
theorem IsPart.passes {size : Int} {entry state : StackState} (h : IsPart context session part)
    (tame : context.body.Tame) (room : Roomy context.frame size context.calleeSaved)
    (hentry : entry.rsp % 16 = 8) (hstate : Secured size entry context.calleeSaved 0 state) :
    Passes context size entry (Secured size entry context.calleeSaved 0) 0 part state := by
  rcases h with ⟨stmt, hstmt, command, hcommand, hcode⟩ | hending
  · exact hcode.passes room hentry tame (tame.saved hstmt hcommand) hstate
  · cases hending with
    | none => exact hstate
    | ret =>
        refine Through.cons (hstate.through_harmless room ?_) fun next hnext => hnext.leave room
        simp [Instruction.Harmless, Operand.Safe]

/-- There is room for the frame of a tame body. -/
theorem roomy_of_tame {size : Int} (tame : context.body.Tame)
    (hframe : Frame.compute context.body = .ok context.frame)
    (hsize : context.frame.allocationSize context.calleeSaved.length = .ok size) :
    Roomy context.frame size context.calleeSaved := by
  obtain ⟨hcovers, hsmall, haligned⟩ :=
    Frame.allocationSize_covers (length_toList_le context.body.bindings.calleeSaved) hsize
  have hlaid := Frame.compute_laid hframe
  refine ⟨fun hslot => ?_, by omega, haligned, fun register hmem => ?_⟩
  · have hbounds := hlaid.hasSlot hslot
    omega
  · exact Register.ne_pointers (tame.preserved register (Std.ExtTreeSet.mem_toList.mp hmem))

/-- Control passes the prologue. -/
theorem passes_prologue {size : Int} {entry : StackState} {level : StackState → Prop}
    (room : Roomy context.frame size context.calleeSaved) :
    Passes context size entry level 0 (prologueCode context size) entry := by
  refine through_enter room fun param hparam => Or.inl ?_
  exact (List.of_mem_zip hparam).1

/-- Paths through the prologue and parts, some of which are behind the others. -/
theorem path_disciplined {size : Int} {entry : StackState} (tame : context.body.Tame)
    (room : Roomy context.frame size context.calleeSaved) (hentry : entry.rsp % 16 = 8)
    {done later : List (List Instruction)} {code : List Instruction}
    (hparts : ∀ part ∈ done ++ later, IsPart context session part)
    (hcode : code = prologueCode context size ++ (done ++ later).flatten) :
    (∀ instruction rest state, Path code ⟨code, entry⟩ ⟨instruction :: rest, state⟩ →
      Disciplined context.frame context.calleeSaved entry instruction state) ∧
    ∀ state, Path code ⟨code, entry⟩ ⟨later.flatten, state⟩ →
      Secured size entry context.calleeSaved 0 state := by
  subst hcode
  -- the parts are passed one after the other, from wherever control comes into them
  have hpasses : ∀ part ∈ done ++ later, ∀ state, Secured size entry context.calleeSaved 0 state →
      Passes context size entry (Secured size entry context.calleeSaved 0) 0 part state :=
    fun part hpart state hstate => (hparts part hpart).passes tame room hentry hstate
  have halone : ∀ part ∈ done ++ later, LabelsAlone part :=
    fun part hpart => (hparts part hpart).labelsAlone
  have hunlabelled := unlabelled_prologueCode context size
  have hprologue : prologueCode context size ≠ [] := List.cons_ne_nil _ _
  constructor
  · intro instruction rest state hpath
    exact path_asks hpasses hunlabelled halone hprologue (passes_prologue room) hpath
  · intro state hpath
    exact path_level hpasses hunlabelled halone hprologue (passes_prologue room) rfl hpath

end

/-- **STACK DISCIPLINE**.  Whatever path control takes through the code of a method
    that is entered like any other, every instruction finds what it has to: the stack
    is aligned at calls, what is pushed, popped or taken off the stack pointer does
    not overlap slots, and at returns the caller has its pointers and the registers
    that were pushed for it.  Every statement starts at the depth that the prologue
    leaves. -/
theorem emitMethod_stack_discipline {body : Body} (hbody : body.Emittable) {symbols : SymbolPool}
    {session last : Session} {function : Function}
    (hemit : emitMethod body symbols session = .ok (.ok function, last)) :
    ∃ (frame : Frame) (size : Int), Frame.compute body = .ok frame ∧
      frame.allocationSize body.bindings.calleeSaved.toList.length = .ok size ∧
      ∀ entry : StackState, entry.rsp % 16 = 8 →
        (∀ instruction rest state,
          Path function.code ⟨function.code, entry⟩ ⟨instruction :: rest, state⟩ →
          Disciplined frame body.bindings.calleeSaved.toList entry instruction state) ∧
        ∀ before after, body.stmts = before ++ after → ∃ front rest,
          Arrives body symbols session before front ∧ function.code = front ++ rest ∧
          ∀ state, Path function.code ⟨function.code, entry⟩ ⟨rest, state⟩ →
            state.rbp = entry.rsp - 8 ∧
            state.rsp = entry.rsp - (8 + size + 8 * body.bindings.calleeSaved.toList.length) := by
  have tame := hbody.tame
  obtain ⟨name, frame, size, done, later, hframe, hsize, -, hcode, hparts⟩ :=
    emitMethod_parts tame hemit (List.nil_append body.stmts).symm
  have room := @roomy_of_tame ⟨body, symbols, frame, name⟩ size tame hframe hsize
  refine ⟨frame, size, hframe, hsize, fun entry hentry => ⟨?_, fun before after hsplit => ?_⟩⟩
  · exact (path_disciplined tame room hentry hparts hcode).1
  -- the division of the statements gives a division of the same code
  · obtain ⟨name', frame', size', done', later', hframe', hsize', harrives, hcode', hparts'⟩ :=
      emitMethod_parts tame hemit hsplit
    cases hframe.symm.trans hframe'
    cases hsize.symm.trans hsize'
    have room' := @roomy_of_tame ⟨body, symbols, frame, name'⟩ size tame hframe hsize
    refine ⟨_, later'.flatten, harrives, ?_, fun state hpath => ?_⟩
    · rw [hcode', List.flatten_append, List.append_assoc]
    · have hsecured := (path_disciplined tame room' hentry hparts' hcode').2 state hpath
      have hrsp := hsecured.rsp
      rw [Int.add_zero] at hrsp
      exact ⟨hsecured.rbp, hrsp⟩

/-- A body that calls a method with eight arguments in a loop. -/
def passingMany : Body where
  name := ⟨0⟩
  params := [⟨0⟩]
  records := #[.param 0, .save ⟨0⟩ ⟨0⟩, .label ⟨0⟩,
    .call ⟨3⟩ [⟨0⟩, ⟨0⟩, ⟨0⟩, ⟨0⟩, ⟨0⟩, ⟨0⟩, ⟨0⟩, ⟨0⟩] true [], .save ⟨3⟩ ⟨1⟩, .load ⟨1⟩,
    .branch ⟨5⟩ ⟨1⟩, .jump ⟨0⟩, .label ⟨1⟩, .load ⟨0⟩, .ret (some ⟨9⟩)]
  locations := #[.localVar ⟨1⟩, .localVar ⟨2⟩]
  labels := #[some ⟨1⟩, some ⟨3⟩]
  blocks := #[⟨none, [⟨1⟩]⟩, ⟨some ⟨0⟩, [⟨2⟩, ⟨4⟩, ⟨6⟩]⟩, ⟨none, [⟨7⟩]⟩, ⟨some ⟨1⟩, [⟨8⟩, ⟨10⟩]⟩]

/-- Whether control always goes on behind an instruction that is not a call. -/
def isStraight : Instruction → Bool
  | .jmp _ | .ret | .call _ => false
  | _ => true

/-- With registers that the method and the call have to preserve, and a word more that
    aligns the stack, control comes to the call, and the stack is aligned there. -/
theorem passingMany_stack_discipline : ∃ summary body function last,
    allocateRegisters [.rbx, .rcx] passingMany = .ok (summary, body) ∧
      emitMethod body ⟨#["main", "x", "y", "sum"]⟩ {} = .ok (.ok function, last) ∧
      body.bindings.calleeSaved.toList = [.rbx] ∧
      .alu .sub (.reg .rsp) (.imm 8) ∈ function.code ∧
      ∀ entry : StackState, entry.rsp % 16 = 8 → ∃ rest state,
        Path function.code ⟨function.code, entry⟩ ⟨.call "sum" :: rest, state⟩ ∧
        state.rsp % 16 = 0 := by
  obtain ⟨⟨summary, body⟩, hok, htest⟩ := @Checked.exists_of_test _ _
    (allocateRegisters [.rbx, .rcx] passingMany) (fun result =>
      result.2.bindings.calleeSaved.toList = [.rbx] &&
      (emitMethod result.2 ⟨#["main", "x", "y", "sum"]⟩ {}).toOption.any fun emitted =>
        emitted.1.toOption.any fun function =>
          .alu .sub (.reg .rsp) (.imm 8) ∈ function.code &&
          (function.code.dropWhile isStraight).head? = some (.call "sum")) (by decide +kernel)
  obtain ⟨hpreserved, hemitted⟩ := Bool.and_eq_true_iff.mp htest
  obtain ⟨⟨result, last⟩, hemit, hresult⟩ := Checked.exists_of_test hemitted
  obtain ⟨function, rfl, hcode⟩ := Checked.exists_of_test hresult
  obtain ⟨hpads, hcalls⟩ := Bool.and_eq_true_iff.mp hcode
  obtain ⟨rest, hrest⟩ := List.head?_eq_some_iff.mp (of_decide_eq_true hcalls)
  refine ⟨summary, body, function, last, hok, hemit, of_decide_eq_true hpreserved,
    of_decide_eq_true hpads, fun entry hentry => ?_⟩
  -- up to the first call nothing jumps, so control comes there
  have hsplit : function.code = function.code.takeWhile isStraight ++ .call "sum" :: rest := by
    rw [← hrest, List.takeWhile_append_dropWhile]
  have hplain : ∀ instruction ∈ function.code.takeWhile isStraight,
      (∀ target, instruction ≠ .jmp target) ∧ instruction ≠ .ret := by
    intro instruction hmem
    have hstraight := List.all_eq_true.mp List.all_takeWhile instruction hmem
    constructor
    · rintro target rfl
      cases hstraight
    · rintro rfl
      cases hstraight
  obtain ⟨state, hpath⟩ := @exists_path function.code _ (.call "sum" :: rest) hplain entry
  rw [← hsplit] at hpath
  have wf : WellFormed passingMany := by decide +kernel
  obtain ⟨_, _, -, -, hdisciplined⟩ := emitMethod_stack_discipline (.wellFormed wf hok) hemit
  exact ⟨rest, state, hpath, (hdisciplined entry hentry).1 _ rest state hpath⟩

end Emission

end DecafBackend
