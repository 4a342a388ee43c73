import DecafBackend.Flow.Graph
import DecafBackend.Proofs.Checked
import DecafBackend.Proofs.Commands

/-! # Well-formed bodies

    What every body satisfies that lowering builds and the passes change: each
    statement is a command that names locations which exist, no record belongs
    to two statements, and control leaves a block at its end only.

    * `Command.Valid`, `WellFormed` — the conditions
    * `At` — the points of a body that control can come to
    * `FlowGraph.Of`, `flowGraph_ok` — the flow graph of a body
    * `mem_successors_of_target`, `mem_successors_of_next` — control goes along
      the edges of the graph only
    * `wellFormed_iff` — well-formedness is decidable -/

namespace DecafBackend

/-- The locations that a command names exist, what it writes can be written,
    and where it goes is the start of a block. -/
structure Command.Valid (body : Body) (stmt : Inst) (command : Command) : Prop where
  reads : ∀ access ∈ command.reads stmt, access.loc.index < body.locations.size
  dest : ∀ loc, command.dest? = some loc →
    ∃ location, body.locations[loc.index]? = some location ∧ location.isWritable = true
  target : ∀ label, command.target? = some label →
    ∃ block, body.labels[label.index]? = some (some block) ∧ block.index < body.blocks.size

/-- The records that belong to a statement. -/
def Body.family (body : Body) (stmt : Inst) : List Inst :=
  match body.command? stmt with
  | some command => command.owned ++ [stmt]
  | none => [stmt]

/-- What lowering establishes and every pass keeps. -/
structure WellFormed (body : Body) : Prop where
  /-- Every statement is a command. -/
  commands : ∀ stmt ∈ body.stmts, ∃ command, body.command? stmt = some command ∧
    command.Valid body stmt
  /-- Every statement stands in one place. -/
  distinct : body.stmts.Nodup
  /-- Every record belongs to at most one statement. -/
  owned : ∀ stmt ∈ body.stmts, ∀ other ∈ body.stmts, ∀ inst, inst ∈ body.family stmt →
    inst ∈ body.family other → stmt = other
  /-- Control leaves a block at its end only. -/
  enders : ∀ {block before stmt after command}, body.stmtsOf block = before ++ stmt :: after →
    body.command? stmt = some command → command.endsBlock = true → after = []
  /-- Control does not leave the end of the body. -/
  ending : ∃ stmt command, body.lastStmt? = some stmt ∧ body.command? stmt = some command ∧
    command.isTerminator = true
  /-- A field, an immediate or a literal text is one location only. -/
  interned : ∀ {i j : Nat} {location : Location}, body.locations[i]? = some location →
    body.locations[j]? = some location → location.isInterned = true → i = j

namespace Body

variable {body : Body}

/-! ## Statements and blocks -/

theorem stmtsOf_eq {block : Block} {basic : BasicBlock}
    (h : body.blocks[block.index]? = some basic) : body.stmtsOf block = basic.stmts := by
  rw [stmtsOf, h]

/-- A statement of the body stands in one of its blocks. -/
theorem mem_stmts {stmt : Inst} :
    stmt ∈ body.stmts ↔ ∃ block : Block, block.index < body.blocks.size ∧
      stmt ∈ body.stmtsOf block := by
  rw [stmts, List.mem_flatMap]
  constructor
  · rintro ⟨basic, hbasic, hstmt⟩
    obtain ⟨i, hi, rfl⟩ := List.mem_iff_getElem.mp hbasic
    rw [Array.length_toList] at hi
    refine ⟨⟨i⟩, hi, ?_⟩
    rw [stmtsOf_eq (Array.getElem?_eq_getElem hi)]
    exact hstmt
  · rintro ⟨block, hlt, hstmt⟩
    refine ⟨body.blocks[block.index], Array.getElem_mem_toList hlt, ?_⟩
    rw [stmtsOf_eq (Array.getElem?_eq_getElem hlt)] at hstmt
    exact hstmt

theorem mem_stmts_of_stmtsOf {block : Block} {stmt : Inst} (h : stmt ∈ body.stmtsOf block) :
    stmt ∈ body.stmts := by
  rw [mem_stmts]
  refine ⟨block, Nat.lt_of_not_le fun hle => ?_, h⟩
  rw [stmtsOf, Array.getElem?_eq_none hle] at h
  cases h

theorem mem_blockKeys {block : Block} :
    block ∈ body.blockKeys ↔ block.index < body.blocks.size := by
  rw [blockKeys, List.mem_map]
  constructor
  · rintro ⟨i, hi, rfl⟩
    exact List.mem_range.mp hi
  · intro h
    exact ⟨block.index, List.mem_range.mpr h, rfl⟩

theorem nodup_blockKeys (body : Body) : body.blockKeys.Nodup :=
  List.Pairwise.map Key.mk (fun _ _ hne heq => hne (congrArg Key.index heq)) List.nodup_range

/-- The statements of a body whose records and blocks are the same. -/
theorem command?_congr {body' : Body} {stmt : Inst} (h : body'.records = body.records) :
    body'.command? stmt = body.command? stmt := by
  simp only [command?, value?, access?, h]

theorem mem_family_self (body : Body) (stmt : Inst) : stmt ∈ body.family stmt := by
  rw [family]
  split
  · exact List.mem_append_right _ List.mem_cons_self
  · exact List.mem_cons_self

theorem family_eq {stmt : Inst} {command : Command} (h : body.command? stmt = some command) :
    body.family stmt = command.owned ++ [stmt] := by
  rw [family, h]

/-! ## Points -/

/-- A point of a body that control can come to: what is behind the point does
    not turn control away. -/
structure At (body : Body) (block : Block) (rest : List Inst) : Prop where
  block_lt : block.index < body.blocks.size
  reached : ∃ before, body.stmtsOf block = before ++ rest ∧
    ∀ stmt command, before.getLast? = some stmt → body.command? stmt = some command →
      command.isTerminator = false

theorem At.start {block : Block} (h : block.index < body.blocks.size) :
    body.At block (body.stmtsOf block) := ⟨h, [], rfl, nofun⟩

theorem At.mem {block : Block} {stmt : Inst} {rest : List Inst}
    (h : body.At block (stmt :: rest)) : stmt ∈ body.stmtsOf block := by
  obtain ⟨before, hstmts, -⟩ := h.reached
  rw [hstmts]
  exact List.mem_append_right _ List.mem_cons_self

/-- Control falls through a statement. -/
theorem At.next {block : Block} {stmt : Inst} {rest : List Inst} {command : Command}
    (h : body.At block (stmt :: rest)) (hcommand : body.command? stmt = some command)
    (hfalls : command.isTerminator = false) : body.At block rest := by
  obtain ⟨before, hstmts, -⟩ := h.reached
  refine ⟨h.block_lt, before ++ [stmt], by rw [hstmts, List.append_assoc]; rfl, ?_⟩
  intro other command' hlast hcommand'
  rw [List.getLast?_concat] at hlast
  cases hlast
  rw [hcommand] at hcommand'
  cases hcommand'
  exact hfalls

end Body

namespace WellFormed

variable {body : Body} (wf : WellFormed body)
include wf

theorem command_of_mem {block : Block} {stmt : Inst} (h : stmt ∈ body.stmtsOf block) :
    ∃ command, body.command? stmt = some command ∧ command.Valid body stmt :=
  wf.commands stmt (Body.mem_stmts_of_stmtsOf h)

/-- The command of a statement fits the body. -/
theorem valid {stmt : Inst} {command : Command} (hstmt : stmt ∈ body.stmts)
    (hcommand : body.command? stmt = some command) : command.Valid body stmt := by
  obtain ⟨other, hother, hvalid⟩ := wf.commands stmt hstmt
  rw [hcommand] at hother
  cases hother
  exact hvalid

/-- A statement that ends its block is the last one. -/
theorem rest_eq_nil {block : Block} {stmt : Inst} {rest : List Inst} {command : Command}
    (h : body.At block (stmt :: rest)) (hcommand : body.command? stmt = some command)
    (hends : command.endsBlock = true) : rest = [] := by
  obtain ⟨before, hstmts, -⟩ := h.reached
  exact wf.enders hstmts hcommand hends

/-- A body has a block to start with. -/
theorem blocks_pos : 0 < body.blocks.size := by
  obtain ⟨stmt, -, hlast, -⟩ := wf.ending
  refine Nat.pos_of_ne_zero fun hzero => ?_
  rw [Body.lastStmt?, Array.back?_eq_getElem?, Array.getElem?_eq_none (by omega)] at hlast
  cases hlast

/-! ## Edges -/

omit wf in
theorem labelBlock_eq {label : Label} {block : Option Block}
    (h : body.labels[label.index]? = some block) : body.labelBlock label = .ok block := by
  rw [Body.labelBlock, h]

/-- Every block has successors, possibly none. -/
theorem successors_ok (block : Block) : ∃ blocks, body.successors block = .ok blocks := by
  rw [Body.successors]
  cases hlast : (body.stmtsOf block).getLast? with
  | none => exact ⟨_, rfl⟩
  | some last =>
      obtain ⟨command, hcommand, hvalid⟩ := wf.command_of_mem (List.mem_of_getLast? hlast)
      obtain ⟨record, hrecord, -, htarget, -⟩ := Body.record_command hcommand
      -- a target is placed, so its block is known
      have hlabel : ∀ label, record.target? = some label →
          ∃ target, body.labelBlock label = .ok target := by
        intro label hlabel
        rw [htarget] at hlabel
        obtain ⟨target, hplaced, -⟩ := hvalid.target label hlabel
        exact ⟨_, labelBlock_eq hplaced⟩
      simp only [Body.record_eq hrecord, bind, Except.bind]
      cases record with
      | jump target =>
          obtain ⟨block', hblock'⟩ := hlabel target rfl
          simp only [hblock']
          exact ⟨_, rfl⟩
      | branch cond target =>
          obtain ⟨block', hblock'⟩ := hlabel target rfl
          simp only [hblock']
          exact ⟨_, rfl⟩
      | _ => exact ⟨_, rfl⟩

/-- Where the last statement of a block may go is a successor of the block. -/
theorem mem_successors_of_target {block target : Block} {stmt : Inst} {rest : List Inst}
    {command : Command} {label : Label} {blocks : List Block}
    (h : body.At block (stmt :: rest)) (hcommand : body.command? stmt = some command)
    (hlabel : command.target? = some label)
    (hplaced : body.labels[label.index]? = some (some target))
    (hsuccessors : body.successors block = .ok blocks) : rest = [] ∧ target ∈ blocks := by
  have hrest := wf.rest_eq_nil h hcommand (Command.endsBlock_of_target hlabel)
  subst hrest
  refine ⟨rfl, ?_⟩
  obtain ⟨before, hstmts, -⟩ := h.reached
  obtain ⟨record, hrecord, -, htarget, -⟩ := Body.record_command hcommand
  rw [hlabel] at htarget
  simp only [Body.successors, hstmts, List.getLast?_concat, Body.record_eq hrecord, bind,
    Except.bind] at hsuccessors
  -- jumps have one successor, branches their target and the next block
  cases record with
  | jump other =>
      cases htarget
      simp only [labelBlock_eq hplaced] at hsuccessors
      cases hsuccessors
      exact List.mem_cons_self
  | branch cond other =>
      cases htarget
      simp only [labelBlock_eq hplaced] at hsuccessors
      cases hsuccessors
      rw [List.mem_eraseDups]
      exact List.mem_append_left _ List.mem_cons_self
  | load | param | binary | unary | call | save | use | label | ret | exit => cases htarget

omit wf in
/-- Where control falls through to is a successor of the block. -/
theorem mem_successors_of_next {block next : Block} {blocks : List Block}
    (h : body.At block []) (hnext : body.next? block = some next)
    (hcommands : ∀ stmt ∈ body.stmtsOf block, ∃ command, body.command? stmt = some command)
    (hsuccessors : body.successors block = .ok blocks) : next ∈ blocks := by
  obtain ⟨before, hstmts, hfalls⟩ := h.reached
  rw [List.append_nil] at hstmts
  rw [Body.successors, hnext] at hsuccessors
  -- an empty block falls through, and so does one whose last statement is no terminator
  cases hlast : before.getLast? with
  | none =>
      simp only [hstmts, hlast] at hsuccessors
      cases hsuccessors
      exact List.mem_cons_self
  | some last =>
      have hmem : last ∈ body.stmtsOf block := by
        rw [hstmts]
        exact List.mem_of_getLast? hlast
      obtain ⟨command, hcommand⟩ := hcommands last hmem
      obtain ⟨record, hrecord, -, -, -, hterminator⟩ := Body.record_command hcommand
      rw [hfalls last command hlast hcommand] at hterminator
      simp only [hstmts, hlast, Body.record_eq hrecord, bind, Except.bind] at hsuccessors
      cases record with
      | jump | ret | exit => cases hterminator
      | branch cond target =>
          cases hlabel : body.labelBlock target with
          | error fault => simp only [hlabel] at hsuccessors; cases hsuccessors
          | ok other =>
              simp only [hlabel] at hsuccessors
              cases hsuccessors
              rw [List.mem_eraseDups]
              exact List.mem_append_right _ List.mem_cons_self
      | load | param | binary | unary | call | save | use | label =>
          cases hsuccessors
          exact List.mem_cons_self

omit wf in
theorem next?_lt {block next : Block} (h : body.next? block = some next) :
    next.index < body.blocks.size := by
  rw [Body.next?] at h
  split at h
  · cases h
    assumption
  · cases h

/-- The successors of a block are blocks. -/
theorem lt_of_mem_successors {block target : Block} {blocks : List Block}
    (hsuccessors : body.successors block = .ok blocks) (htarget : target ∈ blocks) :
    target.index < body.blocks.size := by
  -- the next block is a block, and so are the blocks of placed labels
  have hnext : target ∈ (body.next? block).toList → target.index < body.blocks.size := by
    intro h
    rw [Option.mem_toList] at h
    exact next?_lt h
  rw [Body.successors] at hsuccessors
  cases hlast : (body.stmtsOf block).getLast? with
  | none =>
      simp only [hlast] at hsuccessors
      cases hsuccessors
      exact hnext htarget
  | some last =>
      obtain ⟨command, hcommand, hvalid⟩ := wf.command_of_mem (List.mem_of_getLast? hlast)
      obtain ⟨record, hrecord, -, htargetEq, -⟩ := Body.record_command hcommand
      simp only [hlast, Body.record_eq hrecord, bind, Except.bind] at hsuccessors
      have hlabel : ∀ label, record.target? = some label → ∃ placed,
          body.labelBlock label = .ok (some placed) ∧ placed.index < body.blocks.size := by
        intro label hlabel
        rw [htargetEq] at hlabel
        obtain ⟨placed, hplaced, hlt⟩ := hvalid.target label hlabel
        exact ⟨placed, labelBlock_eq hplaced, hlt⟩
      cases record with
      | jump label =>
          obtain ⟨placed, hplaced, hlt⟩ := hlabel label rfl
          simp only [hplaced] at hsuccessors
          cases hsuccessors
          rw [Option.toList_some, List.mem_singleton] at htarget
          exact htarget ▸ hlt
      | branch cond label =>
          obtain ⟨placed, hplaced, hlt⟩ := hlabel label rfl
          simp only [hplaced] at hsuccessors
          cases hsuccessors
          rw [List.mem_eraseDups, List.mem_append] at htarget
          rcases htarget with htarget | htarget
          · rw [Option.toList_some, List.mem_singleton] at htarget
            exact htarget ▸ hlt
          · exact hnext htarget
      | ret | exit => cases hsuccessors; cases htarget
      | load | param | binary | unary | call | save | use | label =>
          cases hsuccessors
          exact hnext htarget

end WellFormed

/-! ## The flow graph of a body -/

/-- A graph that has the blocks and the edges of a body. -/
structure FlowGraph.Of (body : Body) (graph : FlowGraph) : Prop where
  blocks : graph.blocks = body.blockKeys
  successors : ∀ {block : Block}, block.index < body.blocks.size →
    body.successors block = .ok (graph.successors block)

theorem FlowGraph.checkEdges_eq {count : Nat} {targets : List Block}
    (h : ∀ target ∈ targets, target.index < count) : checkEdges count targets = .ok targets := by
  have hnone : (targets.find? fun target => count ≤ target.index) = none :=
    List.find?_eq_none.mpr fun target htarget =>
      Bool.not_eq_true _ ▸ decide_eq_false (Nat.not_le_of_lt (h target htarget))
  rw [checkEdges, hnone]

theorem FlowGraph.checkEdges_eq_ok {count : Nat} {targets checked : List Block}
    (h : checkEdges count targets = .ok checked) :
    checked = targets ∧ ∀ target ∈ targets, target.index < count := by
  rw [checkEdges] at h
  split at h
  · next hnone =>
      refine ⟨(Except.ok.inj h).symm, fun target htarget => ?_⟩
      exact Nat.lt_of_not_le fun hle =>
        List.find?_eq_none.mp hnone target htarget (decide_eq_true hle)
  · cases h

/-- The edges of a graph are those of the body, and lead to its blocks. -/
theorem FlowGraph.successors_of_ofBody {body : Body} {graph : FlowGraph}
    (h : FlowGraph.ofBody body = .ok graph) {block : Block}
    (hlt : block.index < body.blocks.size) :
    body.successors block = .ok (graph.successors block) ∧
      ∀ next ∈ graph.successors block, next.index < body.blocks.size := by
  rw [FlowGraph.ofBody] at h
  obtain ⟨lists, hlists, h⟩ := Checked.bind_eq_ok h
  cases h
  obtain ⟨-, hat⟩ := Checked.mapM_eq_ok hlists
  have hkey : body.blockKeys[block.index]? = some block := by
    rw [Body.blockKeys, List.getElem?_map, List.getElem?_range hlt]
    rfl
  obtain ⟨blocks, hblocks, hchecked⟩ := hat hkey
  obtain ⟨targets, hsuccessors, hchecked⟩ := Checked.bind_eq_ok hchecked
  obtain ⟨rfl, hinside⟩ := checkEdges_eq_ok hchecked
  rw [FlowGraph.successors]
  simp only [List.getElem?_toArray, hblocks, Option.getD_some]
  exact ⟨hsuccessors, hinside⟩

theorem FlowGraph.of_ofBody {body : Body} {graph : FlowGraph}
    (h : FlowGraph.ofBody body = .ok graph) : graph.Of body where
  blocks := by
    rw [FlowGraph.ofBody] at h
    obtain ⟨lists, -, h⟩ := Checked.bind_eq_ok h
    cases h
    rfl
  successors hlt := (successors_of_ofBody h hlt).1

/-- The entry of a body with blocks is the first one. -/
theorem FlowGraph.Of.entry {body : Body} {graph : FlowGraph} (h : graph.Of body)
    (hblocks : 0 < body.blocks.size) : graph.entry? = some ⟨0⟩ := by
  rw [FlowGraph.entry?, h.blocks, Body.blockKeys, List.head?_map, List.head?_range,
    if_neg (Nat.ne_of_gt hblocks)]
  rfl

/-- A body whose edges can be looked up and lead to its blocks has a graph. -/
theorem FlowGraph.ofBody_ok {body : Body} (h : ∀ block ∈ body.blockKeys, ∃ targets,
    body.successors block = .ok targets ∧ ∀ target ∈ targets, target.index < body.blocks.size) :
    ∃ graph, FlowGraph.ofBody body = .ok graph := by
  have hedges : ∀ block ∈ body.blockKeys, ∃ targets, (do
      FlowGraph.checkEdges body.blocks.size (← body.successors block)) = Except.ok targets := by
    intro block hblock
    obtain ⟨targets, htargets, hinside⟩ := h block hblock
    exact ⟨targets, (Checked.bind_ok htargets).trans (FlowGraph.checkEdges_eq hinside)⟩
  obtain ⟨lists, hlists⟩ := Checked.mapM_ok hedges
  refine ⟨{ blocks := body.blockKeys, successorLists := lists.toArray }, ?_⟩
  rw [FlowGraph.ofBody, hlists]
  rfl

/-- A well-formed body has a flow graph. -/
theorem WellFormed.flowGraph_ok {body : Body} (wf : WellFormed body) :
    ∃ graph, FlowGraph.ofBody body = .ok graph ∧ graph.Of body := by
  obtain ⟨graph, hgraph⟩ := @FlowGraph.ofBody_ok body fun block _ => by
    obtain ⟨targets, htargets⟩ := wf.successors_ok block
    exact ⟨targets, htargets, fun target htarget => wf.lt_of_mem_successors htargets htarget⟩
  exact ⟨graph, hgraph, FlowGraph.of_ofBody hgraph⟩

/-! ## Deciding well-formedness -/

instance (body : Body) (stmt : Inst) (command : Command) : Decidable (command.Valid body stmt) :=
  decidable_of_iff
    ((∀ access ∈ command.reads stmt, access.loc.index < body.locations.size) ∧
      (∀ loc ∈ command.dest?, ∃ location ∈ body.locations[loc.index]?,
        location.isWritable = true) ∧
      ∀ label ∈ command.target?, ∃ placed ∈ body.labels[label.index]?, ∃ block ∈ placed,
        block.index < body.blocks.size) <| by
    constructor
    · rintro ⟨hreads, hdest, htarget⟩
      refine ⟨hreads, hdest, fun label hlabel => ?_⟩
      obtain ⟨placed, hplaced, block, rfl, hlt⟩ := htarget label hlabel
      exact ⟨block, hplaced, hlt⟩
    · rintro ⟨hreads, hdest, htarget⟩
      refine ⟨hreads, hdest, fun label hlabel => ?_⟩
      obtain ⟨block, hplaced, hlt⟩ := htarget label hlabel
      exact ⟨some block, hplaced, block, rfl, hlt⟩

/-- What is to be checked of a body. -/
theorem wellFormed_iff {body : Body} : WellFormed body ↔
    (∀ stmt ∈ body.stmts, ∃ command ∈ body.command? stmt, command.Valid body stmt) ∧
    body.stmts.Nodup ∧
    (∀ stmt ∈ body.stmts, ∀ other ∈ body.stmts, ∀ inst ∈ body.family stmt,
      inst ∈ body.family other → stmt = other) ∧
    (∀ block ∈ body.blockKeys, ∀ stmt ∈ (body.stmtsOf block).dropLast,
      ∀ command ∈ body.command? stmt, command.endsBlock = false) ∧
    (∃ stmt ∈ body.lastStmt?, ∃ command ∈ body.command? stmt, command.isTerminator = true) ∧
    (∀ i < body.locations.size, ∀ j < body.locations.size,
      body.locations[i]? = body.locations[j]? →
        (∃ location ∈ body.locations[i]?, location.isInterned = true) → i = j) := by
  constructor
  · intro wf
    refine ⟨wf.commands, wf.distinct, wf.owned, ?_, ?_, ?_⟩
    -- a statement before the last one does not end its block
    · intro block _ stmt hstmt command hcommand
      obtain ⟨before, after, hsplit⟩ := List.append_of_mem hstmt
      have hne : body.stmtsOf block ≠ [] := by
        intro hnil
        rw [hnil] at hstmt
        cases hstmt
      have hall : body.stmtsOf block =
          before ++ stmt :: (after ++ [(body.stmtsOf block).getLast hne]) := by
        conv => lhs; rw [← List.dropLast_concat_getLast hne, hsplit]
        rw [List.append_assoc]
        rfl
      cases hends : command.endsBlock with
      | false => rfl
      | true => exact absurd (wf.enders hall hcommand hends) (by simp)
    · obtain ⟨stmt, command, hlast, hcommand, hterminator⟩ := wf.ending
      exact ⟨stmt, hlast, command, hcommand, hterminator⟩
    · rintro i - j - hsame ⟨location, hlocation, hinterned⟩
      exact wf.interned hlocation (hsame ▸ hlocation) hinterned
  · rintro ⟨hcommands, hdistinct, howned, henders, ⟨stmt, hlast, command, hcommand, hterminator⟩,
      hinterned⟩
    refine ⟨hcommands, hdistinct, howned, ?_, ⟨stmt, command, hlast, hcommand, hterminator⟩, ?_⟩
    -- a statement that ends its block has nothing behind it, else it would not be the last
    -- one
    · intro block before stmt after command hsplit hcommand hends
      cases after with
      | nil => rfl
      | cons next after =>
          have hlt : block.index < body.blocks.size := by
            refine Nat.lt_of_not_le fun hle => ?_
            rw [Body.stmtsOf, Array.getElem?_eq_none hle] at hsplit
            cases before <;> cases hsplit
          have hmem : stmt ∈ (body.stmtsOf block).dropLast := by
            rw [hsplit, List.dropLast_append_of_ne_nil (List.cons_ne_nil _ _)]
            exact List.mem_append_right _ List.mem_cons_self
          rw [henders block (Body.mem_blockKeys.mpr hlt) stmt hmem command hcommand] at hends
          cases hends
    · intro i j location hi hj hlocation
      exact hinterned i (Array.getElem?_eq_some_iff.mp hi).1 j (Array.getElem?_eq_some_iff.mp hj).1
        (hi.trans hj.symm) ⟨location, hi, hlocation⟩

set_option synthInstance.maxSize 400 in
instance (body : Body) : Decidable (WellFormed body) := decidable_of_iff _ wellFormed_iff.symm

end DecafBackend
