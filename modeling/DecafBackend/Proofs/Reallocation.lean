import DecafBackend.Proofs.Allocation

/-! # Allocation forgets earlier allocations

    What allocation writes into a body, it never reads: liveness, webs and
    interference look at no binding and at no list of registers that a call
    preserves.  And all that it has written, it writes again: the calls are the
    same ones each time, whatever the palette is.

    * `Resaved.ofBody`, `Resaved.webs`, `Resaved.interference` — what is computed
      from a body does not depend on an earlier allocation
    * `allocateRegisters_survey` — allocation as a survey and a rewriting
    * `rewritten_rewritten` — the later rewriting prevails
    * `allocateRegisters_forgets` — the main result -/

namespace DecafBackend

namespace Body.Resaved

variable {saved : Inst → List Register} {body after : Body} (h : Resaved saved body after)
include h

/-! ## What is looked up -/

/-- No record is added. -/
theorem size_records : after.records.size = body.records.size := by
  have hnone : ∀ i : Nat, after.records.size ≤ i ↔ body.records.size ≤ i := by
    intro i
    rw [← Array.getElem?_eq_none_iff, ← Array.getElem?_eq_none_iff, h.records ⟨i⟩,
      Option.map_eq_none_iff]
  exact Nat.le_antisymm ((hnone _).mpr (Nat.le_refl _)) ((hnone _).mp (Nat.le_refl _))

theorem location (loc : Loc) : after.location loc = body.location loc := by
  rw [Body.location, Body.location, h.locations]

theorem isTracked (loc : Loc) : after.isTracked loc = body.isTracked loc := by
  rw [Body.isTracked, Body.isTracked, h.location]

/-- Trees of operands are the same. -/
theorem treeWithin (depth : Nat) (inst : Inst) :
    after.treeWithin depth inst = body.treeWithin depth inst := by
  induction depth generalizing inst with
  | zero => rfl
  | succ depth ih =>
      have htree : after.treeWithin depth = body.treeWithin depth := funext ih
      rw [Body.treeWithin, Body.treeWithin, htree]
      exact h.record_bind inst fun saved record => by rw [Record.operands_withSaved]

theorem valueTree (stmt : Inst) : after.valueTree stmt = body.valueTree stmt := by
  rw [Body.valueTree, Body.valueTree, h.size_records, h.treeWithin]

/-- Reads are the same. -/
theorem reads (stmt : Inst) : after.reads stmt = body.reads stmt := by
  have hsources : (fun inst => do
      return (← after.record inst).sources.map (Access.mk inst) : Inst → Checked (List Access)) =
      fun inst => do return (← body.record inst).sources.map (Access.mk inst) :=
    funext fun inst => h.record_bind inst fun saved record => by rw [Record.sources_withSaved]
  rw [Body.reads, Body.reads, h.valueTree, hsources]

/-- Calls are at the same places. -/
theorem callIn? (stmt : Inst) : after.callIn? stmt = body.callIn? stmt := by
  have hcall : (fun inst => do return (← after.record inst).isCall : Inst → Checked Bool) =
      fun inst => do return (← body.record inst).isCall :=
    funext fun inst => h.record_bind inst fun saved record => by rw [Record.isCall_withSaved]
  rw [Body.callIn?, Body.callIn?, h.valueTree, hcall]

/-! ## What is computed -/

/-- What is live in front of a statement is the same. -/
theorem stepBackward (stmt : Inst) (live : LiveReads) :
    LiveReads.stepBackward after stmt live = LiveReads.stepBackward body stmt live := by
  have htracked : after.isTracked = body.isTracked := funext h.isTracked
  have hreads : LiveReads.trackedReads after stmt = LiveReads.trackedReads body stmt := by
    rw [LiveReads.trackedReads, LiveReads.trackedReads, h.reads, htracked]
  rw [LiveReads.stepBackward, LiveReads.stepBackward, htracked, hreads]
  exact h.record_bind stmt fun saved record => by rw [Record.dest?_withSaved]

theorem stepsBackward (stmts : List Inst) (live : LiveReads) :
    LiveReads.stepsBackward after stmts live = LiveReads.stepsBackward body stmts live := by
  simp only [LiveReads.stepsBackward, h.stepBackward]

theorem collectReached (reached : Std.ExtTreeMap Inst (List Inst)) (live : LiveReads)
    (stmts : List Inst) : Liveness.collectReached after reached live stmts =
      Liveness.collectReached body reached live stmts := by
  simp only [Liveness.collectReached, h.stepBackward]

theorem stepBound (graph : FlowGraph) :
    Liveness.stepBound after graph = Liveness.stepBound body graph := by
  have hreads : after.reads = body.reads := funext h.reads
  rw [Liveness.stepBound, Liveness.stepBound, h.stmts, hreads]

/-- The live reads of a body, and what its definitions reach. -/
theorem liveness : Liveness.ofBody after = Liveness.ofBody body := by
  have hanalysis : LiveReads.analysis after = LiveReads.analysis body := by
    simp only [LiveReads.analysis, h.stmtsOf, funext (h.stepsBackward _)]
  simp only [Liveness.ofBody, Liveness.compute, h.flowGraph, hanalysis, h.stepBound,
    h.collectReached, h.blockKeys, h.stmtsOf]

/-- Reads that no save reaches are added to the same webs. -/
theorem addUnreached (state : Std.ExtTreeMap Loc WebKey × Webs) (read : Access) :
    Webs.addUnreached after state read = Webs.addUnreached body state read := by
  simp only [Webs.addUnreached, h.isTracked]

/-- The webs of a body. -/
theorem webs (liveness : Liveness) : Webs.compute after liveness = Webs.compute body liveness := by
  have hdefinitions : Webs.definitions after liveness = Webs.definitions body liveness := by
    rw [Webs.definitions, Webs.definitions]
    congr 1
    funext definition
    exact h.record_bind definition.1 fun saved record => by rw [Record.dest?_withSaved]
  have hreads : after.reads = body.reads := funext h.reads
  have hadd : Webs.addUnreached after = Webs.addUnreached body :=
    funext fun state => funext (h.addUnreached state)
  simp only [Webs.compute, hdefinitions, h.stmts, hreads, hadd]

/-- A statement makes the same webs interfere. -/
theorem addStmt (webs : Webs) (graph : InterferenceGraph) (live : LiveReads) (stmt : Inst) :
    InterferenceGraph.addStmt after webs graph live stmt =
      InterferenceGraph.addStmt body webs graph live stmt := by
  simp only [InterferenceGraph.addStmt, h.callIn?]

theorem addBlock (liveness : Liveness) (webs : Webs) (graph : InterferenceGraph) (block : Block) :
    InterferenceGraph.addBlock after liveness webs graph block =
      InterferenceGraph.addBlock body liveness webs graph block := by
  simp only [InterferenceGraph.addBlock, h.addStmt, h.stmtsOf, h.stepBackward]

/-- The interference graph of a body. -/
theorem interference (liveness : Liveness) (webs : Webs) :
    InterferenceGraph.compute after liveness webs =
      InterferenceGraph.compute body liveness webs := by
  have hblock : InterferenceGraph.addBlock after liveness webs =
      InterferenceGraph.addBlock body liveness webs :=
    funext fun graph => funext (h.addBlock liveness webs graph)
  rw [InterferenceGraph.compute, InterferenceGraph.compute, hblock, h.blockKeys]

end Body.Resaved

/-! ## Rewriting again -/

namespace Body

variable {α : Type} {registers : α → List Register}

/-- A call that is not changed. -/
theorem savedAfter_of_not_mem {call : Inst} {changes : List (Inst × α)}
    {saved : Inst → List Register} (h : ∀ change ∈ changes, change.1 ≠ call) :
    savedAfter registers saved changes call = saved call := by
  induction changes generalizing saved with
  | nil => rfl
  | cons change changes ih =>
      refine (ih fun other hother => h other (List.mem_cons_of_mem _ hother)).trans ?_
      exact if_neg fun heq => h change List.mem_cons_self heq.symm

end Body

section

variable (body : Body) (graph : InterferenceGraph)

/-- At a call that no web lives across, the registers stay as they were. -/
theorem savedAtCalls_of_none (coloring : Coloring) {call : Inst}
    (h : graph.acrossCalls[call]? = none) : savedAtCalls body graph coloring call =
      (body.records[call.index]?.map Record.saved).getD [] := by
  refine Body.savedAfter_of_not_mem fun change hchange heq => ?_
  obtain ⟨inst, survivors⟩ := change
  rw [Std.ExtTreeMap.mem_toList_iff_getElem?_eq_some] at hchange
  dsimp only at heq
  rw [heq, h] at hchange
  cases hchange

/-- **THE LATER REWRITING PREVAILS**: it writes into the same calls. -/
theorem rewritten_rewritten (first second : Coloring) (old bindings : Bindings) :
    rewritten (rewritten body graph first old) graph second bindings =
      rewritten body graph second bindings := by
  obtain ⟨mid, hmid⟩ : ∃ mid, rewritten body graph first old = mid := ⟨_, rfl⟩
  have hfirst := rewritten_resaved body graph first old
  rw [hmid] at hfirst ⊢
  have htwice := rewritten_resaved mid graph second bindings
  have honce := rewritten_resaved body graph second bindings
  have hrecords : (rewritten mid graph second bindings).records =
      (rewritten body graph second bindings).records := by
    refine Array.ext_getElem? fun i => ?_
    rw [htwice.records ⟨i⟩, honce.records ⟨i⟩, hfirst.records ⟨i⟩, Option.map_map]
    cases hrecord : body.records[i]? with
    | none => rfl
    | some record =>
        refine congrArg some ((Record.withSaved_withSaved _ _ record).trans ?_)
        cases hcall : graph.acrossCalls[(⟨i⟩ : Inst)]? with
        | some survivors => rw [savedAtCalls_eq mid graph second hcall,
            savedAtCalls_eq body graph second hcall]
        | none =>
            -- neither rewriting changes the record
            rw [savedAtCalls_of_none mid graph second hcall,
              savedAtCalls_of_none body graph second hcall, hfirst.records ⟨i⟩,
              savedAtCalls_of_none body graph first hcall]
            simp only [hrecord, Option.map_some, Option.getD_some, Record.withSaved_saved]
  have hbindings : (rewritten mid graph second bindings).bindings =
      (rewritten body graph second bindings).bindings := by
    rw [bindings_rewritten, bindings_rewritten]
  rw [htwice.rest, honce.rest, hrecords, hbindings, hfirst.rest]

end

/-! ## Allocation as a survey and a rewriting -/

/-- The interference graph of a body, and the webs that are its nodes. -/
def InterferenceGraph.survey (body : Body) : Checked (Webs × InterferenceGraph) := do
  let liveness ← Liveness.ofBody body
  let webs ← Webs.compute body liveness
  return (webs, ← InterferenceGraph.compute body liveness webs)

/-- **THE SURVEY IS THE SAME** whatever registers the calls save. -/
theorem Body.Resaved.survey {saved : Inst → List Register} {body after : Body}
    (h : body.Resaved saved after) :
    InterferenceGraph.survey after = InterferenceGraph.survey body := by
  simp only [InterferenceGraph.survey, h.liveness, h.webs, h.interference]

/-- What allocation makes of the webs of a body and their interference. -/
def Coloring.plan (palette : List Register) (webs : Webs) (graph : InterferenceGraph) :
    Checked (AllocationSummary × Coloring × Bindings) := do
  let coloring ← Coloring.compute graph webs (usablePalette palette)
  let bindings ← coloring.colors.toList.foldlM (fun (bindings : Bindings) (key, register) => do
    return bindings.bindWeb (← webs.get key) register) {}
  return (⟨webs.webs.size, coloring.colors.size, coloring.spilled.size⟩, coloring, bindings)

/-- Allocation surveys the body, plans, and rewrites. -/
theorem allocateRegisters_survey (palette : List Register) (body : Body) :
    allocateRegisters palette body = (do
      let (webs, graph) ← InterferenceGraph.survey body
      let (summary, coloring, bindings) ← Coloring.plan palette webs graph
      return (summary, rewritten body graph coloring bindings)) := by
  simp only [allocateRegisters, InterferenceGraph.survey, Coloring.plan, bind_assoc, pure_bind]
  rfl

/-- **ALLOCATION FORGETS**: after an allocation, another one has the same outcome
    as it has on the body before. -/
theorem allocateRegisters_again {body after : Body} {p : List Register}
    {summary : AllocationSummary} (h : allocateRegisters p body = .ok (summary, after))
    (q : List Register) : allocateRegisters q after = allocateRegisters q body := by
  rw [allocateRegisters_survey] at h
  obtain ⟨⟨webs, graph⟩, hsurvey, h⟩ := Checked.bind_eq_ok h
  obtain ⟨⟨summary', coloring, bindings⟩, -, h⟩ := Checked.bind_eq_ok h
  cases h
  have hresaved := rewritten_resaved body graph coloring bindings
  rw [allocateRegisters_survey, allocateRegisters_survey, hresaved.survey, hsurvey]
  simp only [bind, Except.bind, rewritten_rewritten]

/-! ## What is left of a palette -/

/-- Every register that a body names is one of some registers: those that
    accesses are bound to, those that the method preserves for its caller, and
    those that its calls preserve. -/
structure Body.NamesOnly (body : Body) (registers : List Register) : Prop where
  bound : ∀ access register, body.bindings.get? access = some register → register ∈ registers
  calleeSaved : ∀ register ∈ body.bindings.calleeSaved, register ∈ registers
  saved : ∀ stmt ∈ body.stmts, ∀ saved, body.CallsSaving stmt saved →
    ∀ register ∈ saved, register ∈ registers

/-- The calls of a body are told what the webs that survive them are in. -/
theorem Allocated.namesOnly {body : Body} (wf : WellFormed body) {palette : List Register}
    {flow : FlowGraph} {liveness : Liveness} {webs : Webs} {graph : InterferenceGraph}
    {coloring : Coloring} {bindings : Bindings}
    (h : Allocated body palette flow liveness webs graph coloring bindings) :
    (rewritten body graph coloring bindings).NamesOnly (usablePalette palette) := by
  have hresaved := rewritten_resaved body graph coloring bindings
  have hbindings := bindings_rewritten body graph coloring bindings
  -- registers of bindings, of the method and of calls are all colours of the new colouring
  refine ⟨fun access register hbound => ?_, fun register hregister => ?_, ?_⟩
  · rw [hbindings] at hbound
    obtain ⟨key, hcolor, -⟩ := h.binds.holds hbound
    exact h.proper.palette hcolor
  · rw [hbindings] at hregister
    exact (h.preserves.among register hregister).1
  · intro stmt hstmt saved hcalls register hregister
    rw [hresaved.stmts] at hstmt
    obtain ⟨survivors, rfl⟩ := h.callsSaving wf hstmt hcalls
    obtain ⟨key, -, hcolor, -⟩ := Coloring.mem_savedAcross.mp hregister
    exact h.proper.palette hcolor

/-- **ALLOCATION FORGETS ITS HISTORY**.  An allocation on what an earlier one has
    left has the same outcome as on the body itself: the same summary and the
    same body, with its bindings, the registers that it has to preserve, and the
    registers that each call preserves.  It names no register of the earlier
    palette that is not in its own, and it changes nothing if the palettes are
    the same. -/
theorem allocateRegisters_forgets {body : Body} (wf : WellFormed body) (p q : List Register) :
    ∃ first second, allocateRegisters p body = .ok first ∧ allocateRegisters q body = .ok second ∧
      allocateRegisters q first.2 = .ok second ∧ second.2.NamesOnly (usablePalette q) ∧
      allocateRegisters p first.2 = .ok first := by
  obtain ⟨summary, flow, liveness, webs, graph, coloring, bindings, hfirst, -⟩ :=
    allocateRegisters_eq wf p
  obtain ⟨summary', flow', liveness', webs', graph', coloring', bindings', hsecond, hallocated⟩ :=
    allocateRegisters_eq wf q
  refine ⟨_, _, hfirst, hsecond, ?_, hallocated.namesOnly wf, ?_⟩
  · rw [allocateRegisters_again hfirst q, hsecond]
  · rw [allocateRegisters_again hfirst p, hfirst]

/-- The call in the loop preserves the register of the variable after the first
    allocation, and nothing after the second one, which has a register that
    callees keep. -/
theorem calledInLoop_forgets :
    (allocateRegisters [.rcx] calledInLoop).toOption.map (fun result => result.2.records[3]?) =
      some (some (.call ⟨1⟩ [⟨1⟩] false [.rcx])) ∧
    ∃ first second, allocateRegisters [.rcx] calledInLoop = .ok first ∧
      allocateRegisters [.rbx, .rax] first.2 = .ok second ∧
      second.2.records[3]? = some (.call ⟨1⟩ [⟨1⟩] false []) ∧
      second.2.bindings.calleeSaved.toList = [.rbx] := by
  refine ⟨by decide +kernel, ?_⟩
  have wf : WellFormed calledInLoop := by decide +kernel
  obtain ⟨first, second, hfirst, hsecond, hagain, -, -⟩ :=
    allocateRegisters_forgets wf [.rcx] [.rbx, .rax]
  have htest : (allocateRegisters [.rbx, .rax] calledInLoop).toOption.map (fun result =>
      (result.2.records[3]?, result.2.bindings.calleeSaved.toList)) =
        some (some (.call ⟨1⟩ [⟨1⟩] false []), [.rbx]) := by decide +kernel
  rw [hsecond] at htest
  have hresult := Option.some.inj htest
  exact ⟨first, second, hfirst, hagain, congrArg Prod.fst hresult, congrArg Prod.snd hresult⟩

end DecafBackend
