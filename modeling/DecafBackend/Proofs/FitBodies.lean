import DecafBackend.Proofs.EmittedRuns
import DecafBackend.Proofs.RegularBodies

/-! # Bodies fit for emission

    A body that no register has been allocated for is fit for emission if its
    labels stand at the starts of their blocks.  It stays so when registers are
    allocated, and its runs stay the same, since they do not depend on where the
    locations are.

    * `Body.Fit` — what is fit for emission before allocation
    * `Fit.of_pieces` — changes of statements that keep a body fit
    * `Fit.ready` — emission without allocation
    * `Resaved.behaviour_eq` — allocation keeps runs
    * `Fit.allocated` — emission after allocation -/

namespace DecafBackend

/-- What makes a body fit for emission, before registers are allocated. -/
structure Body.Fit (body : Body) : Prop where
  wellFormed : WellFormed body
  unbound : body.bindings = {}
  unsaved : ∀ {stmt : Inst} {command : Command}, stmt ∈ body.stmts →
    body.command? stmt = some command → command.saved = []
  /-- A label that is placed starts its block. -/
  labelled : ∀ {label : Label} {block : Block}, body.labels[label.index]? = some (some block) →
    ∃ stmt rest, body.stmtsOf block = stmt :: rest ∧ body.command? stmt = some (.label label)
  /-- A label stands nowhere else. -/
  placed : ∀ {stmt : Inst} {label : Label}, stmt ∈ body.stmts →
    body.command? stmt = some (.label label) →
      ∃ block rest, body.labels[label.index]? = some (some block) ∧
        body.stmtsOf block = stmt :: rest
  /-- The positions of arguments are small. -/
  params : ∀ {stmt inst : Inst} {index : Nat} {dest : Loc}, stmt ∈ body.stmts →
    body.command? stmt = some (.save (.param inst index) dest) → index < 2147483648

namespace Body

variable {body after : Body}

/-! ## Changes that keep a body fit -/

/-- Statements may become others one by one. -/
theorem Fit.of_pieces {pieces : Inst → List Inst} (h : body.Fit)
    (hpieces : Pieces body after pieces) (hbindings : after.bindings = {}) : after.Fit := by
  -- every statement left comes of an old one
  have horigin : ∀ {piece new}, piece ∈ after.stmts → after.command? piece = some new →
      ∃ stmt command, stmt ∈ body.stmts ∧ body.command? stmt = some command ∧
        Yields stmt command piece new := by
    intro piece new hpiece hnew
    obtain ⟨block, -, hmem⟩ := Body.mem_stmts.mp hpiece
    obtain ⟨stmt, command, hstmt, hcommand, hyields⟩ := hpieces.origin h.wellFormed hmem hnew
    exact ⟨stmt, command, Body.mem_stmts_of_stmtsOf hstmt, hcommand, hyields⟩
  refine ⟨hpieces.wellFormed, hbindings, ?_, hpieces.labelled h.labelled,
    hpieces.placed h.wellFormed h.placed, ?_⟩
  · intro piece new hpiece hnew
    obtain ⟨stmt, command, hstmt, hcommand, hyields⟩ := horigin hpiece hnew
    rcases hyields.saved with hnone | hsame
    · exact hnone
    · rw [hsame, h.unsaved hstmt hcommand]
  · intro piece inst index dest hpiece hnew
    obtain ⟨stmt, command, hstmt, hcommand, hyields⟩ := horigin hpiece hnew
    obtain ⟨dest', rfl⟩ := hyields.param inst index dest rfl
    exact h.params hstmt hcommand

/-! ## Without allocation -/

/-- The registers that a call saves are those of its statement. -/
theorem CallsSaving.saved {stmt : Inst} {saved : List Register} (h : body.CallsSaving stmt saved) :
    ∃ command, body.command? stmt = some command ∧ command.saved = saved := by
  obtain ⟨command, call, target, args, isExternal, hcommand, hcall, hrecord⟩ := h
  refine ⟨command, hcommand, ?_⟩
  have hparts := Body.command?_eq_some.mp hcommand
  cases command with
  | save value dest =>
      cases value with
      | call inst target' args' isExternal' saved' =>
          cases hcall
          cases hrecord.symm.trans hparts.2
          rfl
      | load | param | unary | binary => cases hcall
  | call target' args' isExternal' saved' =>
      cases hcall
      cases hrecord.symm.trans hparts
      rfl
  | use | label | jump | branch | ret | exit => cases hcall

/-- Nothing is bound in a fit body. -/
theorem Fit.get?_eq_none (h : body.Fit) (access : Access) : body.bindings.get? access = none := by
  rw [h.unbound]
  rfl

/-- **NO REGISTERS ARE NEEDED** for emission. -/
theorem Fit.ready (h : body.Fit) : body.Ready where
  wellFormed := h.wellFormed
  keeps := by
    -- without bindings everything is in memory, each location in its own place
    have hstorage : ∀ access, body.storage access = .memory access.loc := by
      intro access
      rw [storage, h.get?_eq_none]
    refine ⟨fun hbound => ?_, fun _ _ _ _ hloc => ?_, fun _ _ _ _ hne heq => ?_,
      fun _ _ _ _ _ hbound => ?_⟩
    · cases (h.get?_eq_none _).symm.trans hbound
    · rw [hstorage, hstorage, hloc]
    · rw [hstorage, hstorage] at heq
      injection heq with hloc
      exact hne hloc.symm
    · cases (h.get?_eq_none _).symm.trans hbound
  tracks hbound := by cases (h.get?_eq_none _).symm.trans hbound
  recorded hbound := by cases (h.get?_eq_none _).symm.trans hbound
  preserved register hregister := by
    rw [h.unbound] at hregister
    exact absurd hregister Std.ExtTreeSet.not_mem_empty
  saved hstmt hcalls := by
    obtain ⟨command, hcommand, rfl⟩ := hcalls.saved
    rw [h.unsaved hstmt hcommand]
    refine ⟨Nat.zero_le _, fun register hregister => ?_⟩
    cases hregister
  labelled := h.labelled
  placed := h.placed
  params := h.params

/-! ## Allocation keeps runs -/

namespace Resaved

variable {saved : Inst → List Register} (h : Resaved saved body after)
include h

/-- Reads do not depend on saved registers. -/
theorem read (setting : Setting) (store : Store) (loc : Loc) :
    after.read setting store loc = body.read setting store loc := by
  rw [Body.read, Body.read, h.locations]

/-- Operands do not depend on saved registers. -/
theorem operand (setting : Setting) (store : Store) (inst : Inst) :
    after.operand setting store inst = body.operand setting store inst := by
  rw [Body.operand, Body.operand, h.records inst]
  cases body.records[inst.index]? with
  | none => rfl
  | some record =>
      cases record with
      | load src => exact h.read setting store src
      | param | unary | binary | call | save | use | label | jump | branch | ret | exit => rfl

/-- Calls do not depend on saved registers. -/
theorem callOut (setting : Setting) (store : Store) (calls : List CallEvent) (target : Symbol)
    (args : List Loc) :
    after.callOut setting store calls target args =
      body.callOut setting store calls target args := by
  have hread : after.read setting store = body.read setting store := funext (h.read setting store)
  rw [Body.callOut, Body.callOut, hread]

/-- Values do not depend on saved registers. -/
theorem evaluateAt (setting : Setting) (store : Store) (calls : List CallEvent) (inst : Inst) :
    after.evaluateAt setting store calls inst = body.evaluateAt setting store calls inst := by
  rw [Body.evaluateAt, Body.evaluateAt, h.records inst]
  cases body.records[inst.index]? with
  | none => rfl
  | some record =>
      cases record with
      | load src => simp only [Option.map_some, Record.withSaved, evaluate, compute, h.read]
      | unary op operand =>
          simp only [Option.map_some, Record.withSaved, evaluate, compute, h.operand]
      | binary op lhs rhs =>
          simp only [Option.map_some, Record.withSaved, evaluate, compute, h.operand]
      | call target args isExternal => exact h.callOut setting store calls target args
      | param | save | use | label | jump | branch | ret | exit => rfl

/-- Jumps do not depend on saved registers. -/
theorem goTo (config : Config) (label : Label) :
    after.goTo config label = body.goTo config label := by
  simp only [Body.goTo, h.labels, enter, h.stmtsOf]

/-- Records are performed alike, whatever they save. -/
theorem stepOver (setting : Setting) (config : Config) (record : Record)
    (registers : List Register) :
    after.stepOver setting config (record.withSaved registers) =
      body.stepOver setting config record := by
  cases record with
  | save value dest =>
      simp only [Record.withSaved, Body.stepOver, h.evaluateAt, Body.write, h.locations]
  | call target args isExternal => simp only [Record.withSaved, Body.stepOver, h.callOut]
  | jump target => exact h.goTo config target
  | branch cond target => simp only [Record.withSaved, Body.stepOver, h.operand, h.goTo]
  | ret value =>
      cases value with
      | none => rfl
      | some value => simp only [Record.withSaved, Body.stepOver, h.operand]
  | load | param | unary | binary | use | label | exit => rfl

/-- Steps do not depend on saved registers. -/
theorem stepFrom (setting : Setting) (config : Config) :
    after.stepFrom setting config = body.stepFrom setting config := by
  cases hrest : config.rest with
  | nil =>
      rw [stepFrom_nil hrest, stepFrom_nil hrest]
      simp only [leave, next?, enter, h.blocks, h.stmtsOf]
  | cons stmt rest =>
      simp only [Body.stepFrom, hrest, h.records stmt]
      cases body.records[stmt.index]? with
      | none => rfl
      | some record => exact h.stepOver setting _ record _

/-- **ALLOCATION KEEPS RUNS**: they do not depend on where the locations are. -/
theorem behaviour_eq (setting : Setting) (store : Store) :
    after.behaviour setting store = body.behaviour setting store := by
  have hstart : after.start store = body.start store := by rw [Body.start, Body.start, h.stmtsOf]
  have hrun : ∀ n config, (after.execution setting).run n config =
      (body.execution setting).run n config := by
    intro n
    induction n with
    | zero => exact fun _ => rfl
    | succ n ih =>
        intro config
        have hsame : (after.execution setting).step config =
            (body.execution setting).step config := h.stepFrom setting config
        cases hstep : (body.execution setting).step config with
        | ended ending =>
            rw [System.run_succ_ended hstep, System.run_succ_ended (hsame.trans hstep)]
        | going next =>
            rw [System.run_succ_going hstep, System.run_succ_going (hsame.trans hstep), ih]
  funext n
  simp only [Body.behaviour, System.behaviour, hstart, hrun]
  rfl

end Resaved

/-! ## With allocation -/

/-- **ALLOCATION LEAVES A BODY READY** for emission, with the same runs. -/
theorem Fit.allocated (h : body.Fit) (palette : List Register) {summary : AllocationSummary}
    (hok : allocateRegisters palette body = .ok (summary, after)) :
    after.Ready ∧ ∃ saved, Resaved saved body after := by
  obtain ⟨_, flow, liveness, webs, graph, coloring, bindings, heq, found⟩ :=
    allocateRegisters_eq h.wellFormed palette
  cases hok.symm.trans heq
  have hresaved := rewritten_resaved body graph coloring bindings
  have hbindings := bindings_rewritten body graph coloring bindings
  refine ⟨?_, _, hresaved⟩
  -- what allocation finds gives each part; labels and parameters stay where they are
  constructor
  case wellFormed => exact hresaved.wellFormed h.wellFormed
  case keeps => exact found.keepsValues h.wellFormed
  case tracks =>
    intro access register hbound
    rw [hbindings] at hbound
    obtain ⟨key, -, hheld⟩ := found.binds.holds hbound
    rw [hresaved.tracks]
    exact hheld.tracks found.computed
  case recorded =>
    rw [hbindings]
    exact found.preserves.recorded
  case preserved =>
    intro register hregister
    rw [hbindings] at hregister
    obtain ⟨husable, hsaved⟩ := found.preserves.among register hregister
    exact ⟨(mem_usablePalette husable).2, hsaved⟩
  case saved =>
    intro stmt saved hstmt hcalls
    rw [hresaved.stmts] at hstmt
    obtain ⟨survivors, rfl⟩ := found.callsSaving h.wellFormed hstmt hcalls
    refine ⟨Emission.length_toList_le _, fun register hregister => ?_⟩
    obtain ⟨key, -, hcolor, -⟩ := Coloring.mem_savedAcross.mp hregister
    exact (mem_usablePalette (found.proper.palette hcolor)).2
  case labelled =>
    intro label block hplaced
    rw [hresaved.labels] at hplaced
    obtain ⟨stmt, rest, hstmts, hlabel⟩ := h.labelled hplaced
    exact ⟨stmt, rest, (hresaved.stmtsOf block).trans hstmts, hresaved.label_iff.mpr hlabel⟩
  case placed =>
    intro stmt label hstmt hafter
    rw [hresaved.stmts] at hstmt
    obtain ⟨block, rest, hplaced, hstmts⟩ := h.placed hstmt (hresaved.label_iff.mp hafter)
    exact ⟨block, rest, hresaved.labels ▸ hplaced, (hresaved.stmtsOf block).trans hstmts⟩
  case params =>
    intro stmt inst index dest hstmt hafter
    obtain ⟨old, hold, heq⟩ := hresaved.command_of hafter
    rw [hresaved.stmts] at hstmt
    cases old with
    | save value dest' =>
        cases value with
        | param inst' index' =>
            cases heq
            exact h.params hstmt hold
        | load | unary | binary | call => cases heq
    | call | use | label | jump | branch | ret | exit => cases heq

end Body

end DecafBackend
