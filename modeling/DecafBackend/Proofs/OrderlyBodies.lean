import DecafBackend.Proofs.FitPasses
import DecafBackend.Proofs.LoweredBodies

/-! # Orderly bodies

    What later stages take for granted about a body, as its records and blocks say
    it: which records stand in blocks and where, who owns the others, where control
    may go, and which locations are one.  Lowering gives such bodies, and whatever
    passes run on them, they stay so and keep their flow graph.

    * `Body.Orderly` — what is taken for granted
    * `Regular.orderly` — regular bodies are orderly
    * `Pass.Runs`, `Pass.regular_run`, `Pass.flow_run` — passes, one after another
    * `lowerMethod_orderly` — lowered bodies, and whatever passes make of them -/

namespace DecafBackend

/-- Whether a record can stand in a block. -/
def Record.isStatement : Record → Bool
  | save _ _ | call _ _ _ _ | label _ | jump _ | branch _ _ | ret _ | exit _ => true
  | load _ | param _ | binary _ _ _ | unary _ _ | use _ => false

/-- Whether a record is a load. -/
def Record.isLoad : Record → Bool
  | load _ => true
  | _ => false

/-- Whether a record can be an operand of another: a save stores any value, and
    everything else is computed from loads. -/
def Record.takes : Record → Record → Bool
  | save _ _, operand => operand.isValue
  | _, operand => operand.isLoad

namespace Body

/-- A record belongs to a statement. -/
def Owns (body : Body) (stmt inst : Inst) : Prop :=
  ∃ tree, body.valueTree stmt = .ok tree ∧ inst ∈ tree

/-- A block starts with a label. -/
def Heads (body : Body) (label : Label) (block : Block) : Prop :=
  ∃ stmt rest, body.stmtsOf block = stmt :: rest ∧ body.record stmt = .ok (.label label)

/-- What is taken for granted about a body. -/
structure Orderly (body : Body) : Prop where
  /-- Every statement is a save, a call, a label, a jump, a branch, a return or an exit. -/
  statement : ∀ stmt ∈ body.stmts,
    ∃ record, body.record stmt = .ok record ∧ record.isStatement = true
  /-- No statement stands in two places. -/
  distinct : body.stmts.Nodup
  /-- Every statement has its records, and shares none of them. -/
  owner : ∀ stmt ∈ body.stmts, body.Owns stmt stmt ∧
    ∀ inst, body.Owns stmt inst → ∀ other ∈ body.stmts, body.Owns other inst → other = stmt
  /-- Operands are loads, apart from the values that are saved. -/
  operand : ∀ stmt ∈ body.stmts, ∀ inst, body.Owns stmt inst → ∃ record,
    body.record inst = .ok record ∧ ∀ part ∈ record.operands, body.Owns stmt part ∧
      ∃ taken, body.record part = .ok taken ∧ record.takes taken = true
  /-- Control leaves a block at its end only. -/
  ender : ∀ {block before stmt rest record}, body.stmtsOf block = before ++ stmt :: rest →
    body.record stmt = .ok record → record.endsBlock = true → rest = []
  /-- Labels are at the starts of blocks only. -/
  label : ∀ {block before stmt rest label}, body.stmtsOf block = before ++ stmt :: rest →
    body.record stmt = .ok (.label label) → before = []
  /-- A label that control may go to heads one block, where it is placed. -/
  target : ∀ stmt ∈ body.stmts, ∀ record, body.record stmt = .ok record →
    ∀ label, record.target? = some label →
      ∃ block, body.labelBlock label = .ok (some block) ∧
        ∀ other, body.Heads label other ↔ other = block
  /-- Control does not leave the end of the body. -/
  ending : ∃ stmt record, body.lastStmt? = some stmt ∧ body.record stmt = .ok record ∧
    record.isTerminator = true
  /-- Fields, variables and temporaries alone are saved to. -/
  dest : ∀ stmt ∈ body.stmts, ∀ value dest, body.record stmt = .ok (.save value dest) →
    ∃ location, body.location dest = .ok location ∧ location.isWritable = true
  /-- A field, an immediate or a literal text is one location only. -/
  interned : ∀ {loc loc' location}, body.location loc = .ok location →
    body.location loc' = .ok location → location.isInterned = true → loc = loc'

variable {body after : Body}

/-! ## Records of commands -/

theorem records_of_record {inst : Inst} {record : Record} (h : body.record inst = .ok record) :
    body.records[inst.index]? = some record := by
  rw [Body.record] at h
  split at h
  · next hrecord => rw [hrecord, Except.ok.inj h]
  · cases h

theorem locations_of_location {loc : Loc} {location : Location}
    (h : body.location loc = .ok location) : body.locations[loc.index]? = some location := by
  rw [Body.location] at h
  split at h
  · next hlocation => rw [hlocation, Except.ok.inj h]
  · cases h

/-- A statement owns the records of its family. -/
theorem owns_iff {stmt inst : Inst} {command : Command} (h : body.command? stmt = some command) :
    body.Owns stmt inst ↔ inst ∈ body.family stmt := by
  rw [family_eq h]
  constructor
  · rintro ⟨tree, htree, hmem⟩
    cases htree.symm.trans (valueTree_eq h)
    exact hmem
  · exact fun hmem => ⟨_, valueTree_eq h, hmem⟩

/-- The operands of a value are loads among its records. -/
theorem value_operand {value : Value} (h : body.IsValue value) {inst : Inst}
    (hinst : inst ∈ value.insts) : ∃ record, body.record inst = .ok record ∧
      record.isValue = true ∧ ∀ part ∈ record.operands, part ∈ value.insts ∧
        ∃ taken, body.record part = .ok taken ∧ record.takes taken = true := by
  have hload : ∀ {access : Access}, body.records[access.inst.index]? = some (.load access.loc) →
      ∃ record, body.record access.inst = .ok record ∧ record.isValue = true ∧
        ∀ part ∈ record.operands, part ∈ value.insts ∧
          ∃ taken, body.record part = .ok taken ∧ record.takes taken = true :=
    fun hrecord => ⟨_, record_eq hrecord, rfl, List.forall_mem_nil _⟩
  cases value with
  | load src =>
      obtain rfl := List.mem_singleton.mp hinst
      exact hload h
  | param inst' index =>
      obtain rfl := List.mem_singleton.mp hinst
      exact ⟨_, record_eq h, rfl, List.forall_mem_nil _⟩
  | call inst' target args isExternal saved =>
      obtain rfl := List.mem_singleton.mp hinst
      exact ⟨_, record_eq h, rfl, List.forall_mem_nil _⟩
  | unary inst' op operand =>
      obtain ⟨hrecord, hoperand⟩ := h
      rcases List.mem_cons.mp hinst with rfl | hinst
      · exact hload hoperand
      · obtain rfl := List.mem_singleton.mp hinst
        refine ⟨_, record_eq hrecord, rfl, fun part hpart => ?_⟩
        obtain rfl := List.mem_singleton.mp hpart
        exact ⟨List.mem_cons_self, _, record_eq hoperand, rfl⟩
  | binary inst' op lhs rhs =>
      obtain ⟨hrecord, hlhs, hrhs⟩ := h
      simp only [Value.insts, List.mem_cons, List.not_mem_nil, or_false] at hinst
      rcases hinst with rfl | rfl | rfl
      · exact hload hlhs
      · exact hload hrhs
      · refine ⟨_, record_eq hrecord, rfl, fun part hpart => ?_⟩
        simp only [Record.operands, List.mem_cons, List.not_mem_nil, or_false] at hpart
        rcases hpart with rfl | rfl
        · exact ⟨by simp [Value.insts], _, record_eq hlhs, rfl⟩
        · exact ⟨by simp [Value.insts], _, record_eq hrhs, rfl⟩

/-- The operands of the records of a statement are what they should be. -/
theorem command_operand {stmt : Inst} {command : Command} (h : body.command? stmt = some command)
    {inst : Inst} (hinst : inst ∈ body.family stmt) : ∃ record, body.record inst = .ok record ∧
      ∀ part ∈ record.operands, part ∈ body.family stmt ∧
        ∃ taken, body.record part = .ok taken ∧ record.takes taken = true := by
  rw [family_eq h] at hinst ⊢
  have h := command?_eq_some.mp h
  cases command with
  | save value dest =>
      obtain ⟨hrecord, hvalue⟩ := h
      rcases List.mem_append.mp hinst with hinst | hinst
      · obtain ⟨record, hrecord, -, hparts⟩ := value_operand hvalue hinst
        refine ⟨record, hrecord, fun part hpart => ?_⟩
        obtain ⟨hmem, htaken⟩ := hparts part hpart
        exact ⟨List.mem_append_left _ hmem, htaken⟩
      · obtain rfl := List.mem_singleton.mp hinst
        refine ⟨_, record_eq hrecord, fun part hpart => ?_⟩
        obtain rfl := List.mem_singleton.mp hpart
        have hmem : value.inst ∈ value.insts := by cases value <;> simp [Value.inst, Value.insts]
        obtain ⟨taken, htaken, hisValue, -⟩ := value_operand hvalue hmem
        exact ⟨List.mem_append_left _ hmem, taken, htaken, hisValue⟩
  | branch cond target =>
      rcases List.mem_append.mp hinst with hinst | hinst
      · obtain rfl := List.mem_singleton.mp hinst
        exact ⟨_, record_eq h.2, List.forall_mem_nil _⟩
      · obtain rfl := List.mem_singleton.mp hinst
        refine ⟨_, record_eq h.1, fun part hpart => ?_⟩
        obtain rfl := List.mem_singleton.mp hpart
        exact ⟨List.mem_cons_self, _, record_eq h.2, rfl⟩
  | ret value =>
      cases value with
      | none =>
          obtain rfl := List.mem_singleton.mp hinst
          exact ⟨_, record_eq h, List.forall_mem_nil _⟩
      | some value =>
          rcases List.mem_append.mp hinst with hinst | hinst
          · obtain rfl := List.mem_singleton.mp hinst
            exact ⟨_, record_eq h.2, List.forall_mem_nil _⟩
          · obtain rfl := List.mem_singleton.mp hinst
            refine ⟨_, record_eq h.1, fun part hpart => ?_⟩
            obtain rfl := List.mem_singleton.mp hpart
            exact ⟨List.mem_cons_self, _, record_eq h.2, rfl⟩
  | call | use | label | jump | exit =>
      obtain rfl := List.mem_singleton.mp hinst
      exact ⟨_, record_eq h, List.forall_mem_nil _⟩

/-- The record of a statement that is no bare read can stand in a block. -/
theorem command_statement {stmt : Inst} {command : Command} (h : body.command? stmt = some command)
    (hunused : ∀ loc, command ≠ .use loc) :
    ∃ record, body.record stmt = .ok record ∧ record.isStatement = true := by
  have h := command?_eq_some.mp h
  cases command with
  | save | branch => exact ⟨_, record_eq h.1, rfl⟩
  | ret value =>
      cases value with
      | none => exact ⟨_, record_eq h, rfl⟩
      | some value => exact ⟨_, record_eq h.1, rfl⟩
  | call | label | jump | exit => exact ⟨_, record_eq h, rfl⟩
  | use loc => exact absurd rfl (hunused loc)

/-! ## Regular bodies -/

namespace Regular

/-- A label is the command of its record. -/
theorem label_command {stmt : Inst} {label : Label} (h : body.record stmt = .ok (.label label)) :
    body.command? stmt = some (.label label) :=
  command?_eq_some.mpr (records_of_record h)

/-- The command of a statement agrees with its record. -/
theorem command_of_record (h : body.Regular) {stmt : Inst} {record : Record}
    (hstmt : stmt ∈ body.stmts) (hrecord : body.record stmt = .ok record) :
    ∃ command, body.command? stmt = some command ∧ command.Valid body stmt ∧
      record.dest? = command.dest? ∧ record.target? = command.target? ∧
      record.endsBlock = command.endsBlock := by
  obtain ⟨command, hcommand, hvalid⟩ := h.wellFormed.commands stmt hstmt
  obtain ⟨record', hrecord', hdest, htarget, hends, -⟩ := record_command hcommand
  cases hrecord.symm.trans (record_eq hrecord')
  exact ⟨command, hcommand, hvalid, hdest, htarget, hends⟩

/-- A label heads the block at which it is placed, and no other. -/
theorem heads_iff (h : body.Regular) {label : Label} {block : Block}
    (hplaced : body.labels[label.index]? = some (some block)) (other : Block) :
    body.Heads label other ↔ other = block := by
  constructor
  · rintro ⟨stmt, rest, hstmts, hrecord⟩
    have hmem : stmt ∈ body.stmtsOf other := hstmts ▸ List.mem_cons_self
    obtain ⟨block', rest', hplaced', hstmts'⟩ :=
      h.placed (mem_stmts_of_stmtsOf hmem) (label_command hrecord)
    cases hplaced.symm.trans hplaced'
    exact h.wellFormed.block_unique hmem (hstmts' ▸ List.mem_cons_self)
  · rintro rfl
    obtain ⟨stmt, rest, hstmts, hcommand⟩ := h.labelled hplaced
    exact ⟨stmt, rest, hstmts, record_eq (command?_eq_some.mp hcommand)⟩

/-- **REGULAR BODIES ARE ORDERLY**. -/
theorem orderly (h : body.Regular) : body.Orderly := by
  have wf := h.wellFormed
  -- each clause says of records what regularity says of commands
  constructor
  case statement =>
    intro stmt hstmt
    obtain ⟨command, hcommand, -⟩ := wf.commands stmt hstmt
    refine command_statement hcommand fun loc huse => ?_
    exact h.unused hstmt (huse ▸ hcommand)
  case distinct => exact wf.distinct
  case owner =>
    intro stmt hstmt
    obtain ⟨command, hcommand, -⟩ := wf.commands stmt hstmt
    refine ⟨(owns_iff hcommand).mpr (mem_family_self body stmt), ?_⟩
    intro inst hinst other hother hinst'
    obtain ⟨command', hcommand', -⟩ := wf.commands other hother
    exact wf.owned other hother stmt hstmt inst ((owns_iff hcommand').mp hinst')
      ((owns_iff hcommand).mp hinst)
  case operand =>
    intro stmt hstmt inst hinst
    obtain ⟨command, hcommand, -⟩ := wf.commands stmt hstmt
    obtain ⟨record, hrecord, hparts⟩ := command_operand hcommand ((owns_iff hcommand).mp hinst)
    refine ⟨record, hrecord, fun part hpart => ?_⟩
    obtain ⟨hmem, htaken⟩ := hparts part hpart
    exact ⟨(owns_iff hcommand).mpr hmem, htaken⟩
  case ender =>
    intro block before stmt rest record hstmts hrecord hends
    have hmem : stmt ∈ body.stmtsOf block := hstmts ▸ List.mem_append_right _ List.mem_cons_self
    obtain ⟨command, hcommand, -, -, -, hsame⟩ :=
      h.command_of_record (mem_stmts_of_stmtsOf hmem) hrecord
    exact wf.enders hstmts hcommand (hsame ▸ hends)
  case label =>
    intro block before stmt rest label hstmts hrecord
    have hmem : stmt ∈ body.stmtsOf block := hstmts ▸ List.mem_append_right _ List.mem_cons_self
    obtain ⟨block', rest', -, hstmts'⟩ :=
      h.placed (mem_stmts_of_stmtsOf hmem) (label_command hrecord)
    have hblock : block = block' := wf.block_unique hmem (hstmts' ▸ List.mem_cons_self)
    -- the statement would stand in its block twice
    have hnodup := wf.stmtsOf_nodup block
    cases before with
    | nil => rfl
    | cons first before =>
        rw [hblock, hstmts'] at hstmts
        injection hstmts with hfirst hrest
        rw [hblock, hstmts', hrest, List.nodup_cons] at hnodup
        exact absurd (List.mem_append_right _ List.mem_cons_self) hnodup.1
  case target =>
    intro stmt hstmt record hrecord label htarget
    obtain ⟨command, hcommand, hvalid, -, hsame, -⟩ := h.command_of_record hstmt hrecord
    obtain ⟨block, hplaced, -⟩ := hvalid.target label (hsame ▸ htarget)
    exact ⟨block, by rw [labelBlock, hplaced], h.heads_iff hplaced⟩
  case ending =>
    obtain ⟨stmt, command, hlast, hcommand, hterminator⟩ := wf.ending
    obtain ⟨record, hrecord, -, -, -, hsame⟩ := record_command hcommand
    exact ⟨stmt, record, hlast, record_eq hrecord, hsame.trans hterminator⟩
  case dest =>
    intro stmt hstmt value dest hrecord
    obtain ⟨command, -, hvalid, hsame, -⟩ := h.command_of_record hstmt hrecord
    obtain ⟨location, hlocation, hwritable⟩ := hvalid.dest dest hsame.symm
    exact ⟨location, location_eq hlocation, hwritable⟩
  case interned =>
    rintro ⟨i⟩ ⟨j⟩ location hi hj hinterned
    exact congrArg Key.mk
      (wf.interned (locations_of_location hi) (locations_of_location hj) hinterned)

end Regular

end Body

/-! ## Passes -/

namespace Pass

variable {steps : Nat} {pass : Pass} {changed : Bool} {body after : Body}

/-- A pass changes a body statement by statement, or gives it registers. -/
theorem run_cases (wf : WellFormed body) (hrun : pass.run steps body = .ok (changed, after)) :
    (∃ pieces, Body.Pieces body after pieces) ∨ ∃ saved, Body.Resaved saved body after := by
  cases hpass : decide (ofName? pass.name = some pass) with
  | true =>
      obtain ⟨pieces, hpieces, -⟩ := Body.pieces_run wf (of_decide_eq_true hpass) hrun
      exact Or.inl ⟨pieces, hpieces⟩
  | false =>
      cases pass with
      | copies | commonTerms | deadSaves => cases hpass
      | registers palette =>
          obtain ⟨⟨summary, next⟩, hresult, hrun⟩ := Checked.bind_eq_ok hrun
          cases hrun
          obtain ⟨_, flow, liveness, webs, graph, coloring, bindings, heq, -⟩ :=
            allocateRegisters_eq wf palette
          cases hresult.symm.trans heq
          exact Or.inr ⟨_, rewritten_resaved body graph coloring bindings⟩

/-- **A PASS KEEPS A BODY REGULAR**. -/
theorem regular_run (h : body.Regular) (hrun : pass.run steps body = .ok (changed, after)) :
    after.Regular := by
  rcases run_cases h.wellFormed hrun with ⟨pieces, hpieces⟩ | ⟨saved, hresaved⟩
  · exact h.of_pieces hpieces
  · exact h.resaved hresaved

/-- **A PASS KEEPS THE FLOW GRAPH**. -/
theorem flow_run (wf : WellFormed body) (hrun : pass.run steps body = .ok (changed, after)) :
    FlowGraph.ofBody after = FlowGraph.ofBody body := by
  rcases run_cases wf hrun with ⟨pieces, hpieces⟩ | ⟨saved, hresaved⟩
  · exact hpieces.flow wf
  · exact hresaved.flowGraph

/-- What becomes of a body while passes run on it, whichever and in whatever order,
    each with its own bound on the steps of its analysis. -/
inductive Runs (first : Body) : Body → Prop
  /-- No pass has run. -/
  | refl : Runs first first
  /-- One more pass runs. -/
  | next {steps : Nat} {pass : Pass} {changed : Bool} {body after : Body} :
      Runs first body → pass.run steps body = .ok (changed, after) → Runs first after

/-- Passes keep bodies regular. -/
theorem Runs.regular {first : Body} (hruns : Runs first body) (h : first.Regular) :
    body.Regular := by
  induction hruns with
  | refl => exact h
  | next _ hrun ih => exact regular_run ih hrun

/-- A list of passes is run one after the other. -/
theorem Runs.of_runAll {passes : List Pass}
    (hrun : runAll steps passes body = .ok (changed, after)) : Runs body after := by
  rw [runAll_eq] at hrun
  refine Checked.foldlM_invariant (fun state : Bool × Body => Runs body state.2) hrun .refl ?_
  rintro state pass state' - hruns hnext
  obtain ⟨⟨this, next⟩, hthis, hstate⟩ := Checked.bind_eq_ok hnext
  cases hstate
  exact hruns.next hthis

end Pass

namespace Lowering

open Source

/-- **LOWERED BODIES ARE ORDERLY, AND PASSES KEEP THEM SO**: whatever passes have
    run on what a method is lowered to, the body is orderly, it has a flow graph,
    and one more pass leaves the flow graph as it is. -/
theorem lowerMethod_orderly (symbols : SymbolPool) (method : Method) {body : Body}
    (hruns : Pass.Runs (lowerMethod symbols method).1 body) :
    body.Orderly ∧ ∃ graph, FlowGraph.ofBody body = .ok graph ∧
      ∀ {steps pass changed after}, Pass.run steps pass body = .ok (changed, after) →
        FlowGraph.ofBody after = .ok graph := by
  have h := hruns.regular (lowerMethod_regular symbols method)
  obtain ⟨graph, hgraph, -⟩ := h.wellFormed.flowGraph_ok
  exact ⟨h.orderly, graph, hgraph, fun hrun => (Pass.flow_run h.wellFormed hrun).trans hgraph⟩

/-- A method that computes a sum again in a loop, calls another method with it,
    and leaves the result of the last call unused. -/
def resummingInLoop : Method where
  name := "f"
  params := ["a", "b"]
  returnsValue := true
  body := .mk ["x", "y"]
    [.assign "x" .assign (.binary (.strict .add) (.var "a") (.var "b")),
      .whileLoop (.var "x") (.mk []
        [.assign "y" .assign (.binary (.strict .add) (.var "a") (.var "b")),
          .assign "x" .assign (.call (.mk "g" [.expr (.var "y")] false))]),
      .assign "y" .assign (.call (.mk "g" [.expr (.var "b")] false)),
      .ret (some (.var "a"))]

/-- All passes find something to do in the method and leave it orderly, and
    registers do not change where control goes. -/
theorem resummingInLoop_orderly : ∃ optimized graph allocated,
    Pass.runAll 60 [.copies, .commonTerms, .copies, .deadSaves] (lowerMethod {} resummingInLoop).1 =
      .ok (true, optimized) ∧
      (Pass.registers Register.defaultPalette).run 60 optimized = .ok (true, allocated) ∧
      optimized.Orderly ∧ FlowGraph.ofBody optimized = .ok graph ∧
      FlowGraph.ofBody allocated = .ok graph := by
  obtain ⟨⟨changed, optimized⟩, hrun, htest⟩ := @Checked.exists_of_test _ _
    (Pass.runAll 60 [.copies, .commonTerms, .copies, .deadSaves] (lowerMethod {} resummingInLoop).1)
    (fun result => result.1 && ((Pass.registers Register.defaultPalette).run 60 result.2).isOk)
    (by decide +kernel)
  obtain ⟨hchanged, hallocates⟩ := Bool.and_eq_true_iff.mp htest
  obtain rfl : changed = true := hchanged
  obtain ⟨horderly, graph, hgraph, hkept⟩ :=
    lowerMethod_orderly {} resummingInLoop (Pass.Runs.of_runAll hrun)
  cases hregisters : (Pass.registers Register.defaultPalette).run 60 optimized with
  | error fault => rw [hregisters] at hallocates; cases hallocates
  | ok result =>
      obtain ⟨⟨summary, next⟩, -, hresult⟩ := Checked.bind_eq_ok hregisters
      cases hresult
      exact ⟨optimized, graph, next, hrun, hregisters, horderly, hgraph, hkept hregisters⟩

end Lowering

end DecafBackend
