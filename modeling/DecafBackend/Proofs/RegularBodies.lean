import DecafBackend.Proofs.DeadSavesEdits
import DecafBackend.Proofs.Resaving

/-! # Regular bodies

    Passes change statements one by one: a statement becomes some others, of which
    the first keeps its label or its way out of the block.  So labels stay at the
    starts of their blocks, and control goes from block to block as before.

    * `Body.Regular` — well-formed bodies whose labels start their blocks
    * `Yields`, `Pieces` — what may come of a statement, and of a body
    * `Pieces.successors`, `Resaved.successors` — the edges do not change
    * `Regular.of_pieces`, `Regular.resaved` — bodies stay regular
    * `ofBody_congr` — flow graphs of bodies with the same edges -/

namespace DecafBackend

/-- The registers that the call of a command preserves. -/
def Command.saved : Command → List Register
  | save (.call _ _ _ _ saved) _ => saved
  | call _ _ _ saved => saved
  | _ => []

/-- What a command calls. -/
def Command.callee? : Command → Option Symbol
  | save (.call _ target _ _ _) _ => some target
  | call target _ _ _ => some target
  | _ => none

/-- A well-formed body without bare reads, in which a label is placed where it
    starts a block. -/
structure Body.Regular (body : Body) : Prop where
  wellFormed : WellFormed body
  /-- No statement is a bare read. -/
  unused : ∀ {stmt : Inst} {loc : Loc}, stmt ∈ body.stmts → body.command? stmt ≠ some (.use loc)
  /-- A label that is placed starts its block. -/
  labelled : ∀ {label : Label} {block : Block}, body.labels[label.index]? = some (some block) →
    ∃ stmt rest, body.stmtsOf block = stmt :: rest ∧ body.command? stmt = some (.label label)
  /-- A label stands nowhere else. -/
  placed : ∀ {stmt : Inst} {label : Label}, stmt ∈ body.stmts →
    body.command? stmt = some (.label label) →
      ∃ block rest, body.labels[label.index]? = some (some block) ∧
        body.stmtsOf block = stmt :: rest

namespace Body

variable {body after : Body}

/-! ## Edges -/

/-- Where control goes from the end of a block, if its last statement has a target
    or none and ends the way or lets control through. -/
def edges (body : Body) (block : Block) : Option Label → Bool → Checked (List Block)
  | some label, true => do return (← body.labelBlock label).toList
  | some label, false => do
    return ((← body.labelBlock label).toList ++ (body.next? block).toList).eraseDups
  | none, true => return []
  | none, false => return (body.next? block).toList

/-- The last statement of a block decides where control goes. -/
theorem successors_of_last {block : Block} {last : Inst} {command : Command}
    (hlast : (body.stmtsOf block).getLast? = some last)
    (hcommand : body.command? last = some command) :
    body.successors block = body.edges block command.target? command.isTerminator := by
  obtain ⟨record, hrecord, -, htarget, -, hterminator⟩ := record_command hcommand
  rw [← htarget, ← hterminator, successors, hlast]
  simp only [record_eq hrecord]
  cases record <;> rfl

theorem labelBlock_congr (h : after.labels = body.labels) (label : Label) :
    after.labelBlock label = body.labelBlock label := by
  rw [labelBlock, labelBlock, h]

theorem next?_congr (h : after.blocks.size = body.blocks.size) (block : Block) :
    after.next? block = body.next? block := by
  rw [next?, next?, h]

/-- Edges depend on the labels and on the number of blocks. -/
theorem edges_congr (hlabels : after.labels = body.labels)
    (hblocks : after.blocks.size = body.blocks.size) (block : Block) (target : Option Label)
    (terminates : Bool) :
    after.edges block target terminates = body.edges block target terminates := by
  simp only [edges, labelBlock_congr hlabels, next?_congr hblocks]

/-- **ONE FLOW GRAPH** for bodies with the same edges. -/
theorem ofBody_congr (hblocks : after.blocks.size = body.blocks.size)
    (hsuccessors : ∀ block, after.successors block = body.successors block) :
    FlowGraph.ofBody after = FlowGraph.ofBody body := by
  have hkeys : after.blockKeys = body.blockKeys := by rw [blockKeys, blockKeys, hblocks]
  have hedges : after.successors = body.successors := funext hsuccessors
  rw [FlowGraph.ofBody, FlowGraph.ofBody, hkeys, hedges, hblocks]

/-! ## Changes statement by statement -/

/-- The name, the arguments and the locations stay, and new locations are
    temporaries. -/
structure Enlarges (body after : Body) : Prop where
  name : after.name = body.name
  params : after.params = body.params
  old : ∀ {i : Nat} {location : Location}, body.locations[i]? = some location →
    after.locations[i]? = some location
  new : ∀ {i : Nat} {location : Location}, after.locations[i]? = some location →
    body.locations[i]? = some location ∨ location = .temp

/-- Equal tables of locations. -/
theorem Enlarges.of_eq (hname : after.name = body.name) (hparams : after.params = body.params)
    (hlocations : after.locations = body.locations) : Enlarges body after where
  name := hname
  params := hparams
  old h := hlocations ▸ h
  new h := Or.inl (hlocations ▸ h)

/-- What two changes add, both add together. -/
theorem Enlarges.trans {last : Body} (h : Enlarges body after) (h' : Enlarges after last) :
    Enlarges body last where
  name := h'.name.trans h.name
  params := h'.params.trans h.params
  old hlocation := h'.old (h.old hlocation)
  new hlocation := (h'.new hlocation).elim h.new Or.inr

/-- What may come of a command: no new label, argument, callee, preserved register
    or bare read, and no new way out of the block. -/
structure Yields (stmt : Inst) (command : Command) (piece : Inst) (new : Command) : Prop where
  label : ∀ label, new = .label label → piece = stmt ∧ command = .label label
  saved : new.saved = [] ∨ new.saved = command.saved
  callee : new.callee? = none ∨ new.callee? = command.callee?
  param : ∀ inst index dest, new = .save (.param inst index) dest →
    ∃ dest', command = .save (.param inst index) dest'
  use : ∀ loc, new = .use loc → ∃ loc', command = .use loc'
  ends : new.endsBlock = true → command.endsBlock = true

theorem Yields.refl (stmt : Inst) (command : Command) : Yields stmt command stmt command where
  label _ h := ⟨rfl, h⟩
  saved := Or.inr rfl
  callee := Or.inr rfl
  param _ _ dest h := ⟨dest, h⟩
  use loc h := ⟨loc, h⟩
  ends := id

/-- What two pieces come from, both come from. -/
theorem Yields.trans {stmt mid piece : Inst} {command next new : Command}
    (h : Yields stmt command mid next) (h' : Yields mid next piece new) :
    Yields stmt command piece new where
  label label hnew := by
    obtain ⟨rfl, hnext⟩ := h'.label label hnew
    exact h.label label hnext
  saved := by
    rcases h'.saved with hnone | hsame
    · exact Or.inl hnone
    · rw [hsame]
      exact h.saved
  callee := by
    rcases h'.callee with hnone | hsame
    · exact Or.inl hnone
    · rw [hsame]
      exact h.callee
  param inst index dest hnew := by
    obtain ⟨dest', hnext⟩ := h'.param inst index dest hnew
    exact h.param inst index dest' hnext
  use loc hnew := by
    obtain ⟨loc', hnext⟩ := h'.use loc hnew
    exact h.use loc' hnext
  ends := h.ends ∘ h'.ends

/-- A well-formed body whose statements come of those of another one by one. -/
structure Pieces (body after : Body) (pieces : Inst → List Inst) : Prop where
  wellFormed : WellFormed after
  enlarges : Enlarges body after
  labels : after.labels = body.labels
  size : after.blocks.size = body.blocks.size
  stmtsOf : ∀ block, after.stmtsOf block = (body.stmtsOf block).flatMap pieces
  /-- Labels stay. -/
  label : ∀ {stmt label}, stmt ∈ body.stmts → body.command? stmt = some (.label label) →
    (∃ more, pieces stmt = stmt :: more) ∧ after.command? stmt = some (.label label)
  /-- Ways out of blocks stay. -/
  ender : ∀ {stmt command}, stmt ∈ body.stmts → body.command? stmt = some command →
    command.endsBlock = true → (∃ more, pieces stmt = stmt :: more) ∧
      ∃ new, after.command? stmt = some new ∧ new.endsBlock = true ∧
        new.target? = command.target? ∧ new.isTerminator = command.isTerminator
  yields : ∀ {stmt command piece new}, stmt ∈ body.stmts → body.command? stmt = some command →
    piece ∈ pieces stmt → after.command? piece = some new → Yields stmt command piece new

namespace Pieces

variable {pieces : Inst → List Inst}

/-- Nothing changes. -/
theorem refl (wf : WellFormed body) : Pieces body body fun stmt => [stmt] where
  wellFormed := wf
  enlarges := Enlarges.of_eq rfl rfl rfl
  labels := rfl
  size := rfl
  stmtsOf _ := (List.flatMap_singleton' _).symm
  label _ hlabel := ⟨⟨[], rfl⟩, hlabel⟩
  ender {_ command} _ hcommand hends := ⟨⟨[], rfl⟩, command, hcommand, hends, rfl, rfl⟩
  yields {stmt command piece new} _ hcommand hpiece hnew := by
    obtain rfl := List.mem_singleton.mp hpiece
    cases hcommand.symm.trans hnew
    exact Yields.refl piece command

/-- Every statement comes of one. -/
theorem origin (h : Pieces body after pieces) (wf : WellFormed body) {block : Block} {piece : Inst}
    {new : Command} (hpiece : piece ∈ after.stmtsOf block)
    (hnew : after.command? piece = some new) :
    ∃ stmt command, stmt ∈ body.stmtsOf block ∧ body.command? stmt = some command ∧
      Yields stmt command piece new := by
  rw [h.stmtsOf] at hpiece
  obtain ⟨stmt, hstmt, hpiece⟩ := List.mem_flatMap.mp hpiece
  have hmem := Body.mem_stmts_of_stmtsOf hstmt
  obtain ⟨command, hcommand, -⟩ := wf.commands stmt hmem
  exact ⟨stmt, command, hstmt, hcommand, h.yields hmem hcommand hpiece hnew⟩

/-- A statement that stays is one of the statements that come of it. -/
theorem mem_stmts (h : Pieces body after pieces) {stmt piece : Inst} (hstmt : stmt ∈ body.stmts)
    (hpiece : piece ∈ pieces stmt) : piece ∈ after.stmts := by
  obtain ⟨block, -, hmem⟩ := Body.mem_stmts.mp hstmt
  refine @Body.mem_stmts_of_stmtsOf _ block _ ?_
  rw [h.stmtsOf]
  exact List.mem_flatMap.mpr ⟨stmt, hmem, hpiece⟩

/-- One change after another. -/
theorem trans {last : Body} {more : Inst → List Inst} (h : Pieces body after pieces)
    (h' : Pieces after last more) : Pieces body last fun stmt => (pieces stmt).flatMap more := by
  -- a label or an ender stays the first of its pieces under both changes
  have hstays : ∀ {stmt rest rest'}, pieces stmt = stmt :: rest → more stmt = stmt :: rest' →
      ∃ rest, (pieces stmt).flatMap more = stmt :: rest := by
    intro stmt rest rest' hpieces hmore
    exact ⟨rest' ++ rest.flatMap more, by rw [hpieces, List.flatMap_cons, hmore]; rfl⟩
  constructor
  case wellFormed => exact h'.wellFormed
  case enlarges => exact h.enlarges.trans h'.enlarges
  case labels => exact h'.labels.trans h.labels
  case size => exact h'.size.trans h.size
  case stmtsOf =>
    intro block
    rw [h'.stmtsOf, h.stmtsOf, List.flatMap_assoc]
  case label =>
    intro stmt label hstmt hlabel
    obtain ⟨⟨rest, hrest⟩, hafter⟩ := h.label hstmt hlabel
    have hmem := h.mem_stmts hstmt (hrest ▸ List.mem_cons_self)
    obtain ⟨⟨rest', hrest'⟩, hlast⟩ := h'.label hmem hafter
    exact ⟨hstays hrest hrest', hlast⟩
  case ender =>
    intro stmt command hstmt hcommand hends
    obtain ⟨⟨rest, hrest⟩, mid, hmid, hends, htarget, hterminator⟩ := h.ender hstmt hcommand hends
    have hmem := h.mem_stmts hstmt (hrest ▸ List.mem_cons_self)
    obtain ⟨⟨rest', hrest'⟩, new, hnew, hends, htarget', hterminator'⟩ := h'.ender hmem hmid hends
    exact ⟨hstays hrest hrest', new, hnew, hends, htarget'.trans htarget,
      hterminator'.trans hterminator⟩
  case yields =>
    intro stmt command piece new hstmt hcommand hpiece hnew
    obtain ⟨mid, hmid, hpiece⟩ := List.mem_flatMap.mp hpiece
    have hmem := h.mem_stmts hstmt hmid
    obtain ⟨next, hnext, -⟩ := h.wellFormed.commands mid hmem
    exact (h.yields hstmt hcommand hmid hnext).trans (h'.yields hmem hnext hpiece hnew)

/-- A block still starts with its label. -/
theorem start (h : Pieces body after pieces) {block : Block} {stmt : Inst} {rest : List Inst}
    {label : Label} (hblock : body.stmtsOf block = stmt :: rest)
    (hlabel : body.command? stmt = some (.label label)) :
    (∃ more, after.stmtsOf block = stmt :: more) ∧ after.command? stmt = some (.label label) := by
  have hstmt : stmt ∈ body.stmts := Body.mem_stmts_of_stmtsOf (hblock ▸ List.mem_cons_self)
  obtain ⟨⟨more, hmore⟩, hafter⟩ := h.label hstmt hlabel
  refine ⟨⟨more ++ rest.flatMap pieces, ?_⟩, hafter⟩
  rw [h.stmtsOf, hblock, List.flatMap_cons, hmore]
  rfl

/-- A statement that ends its block still does. -/
theorem last (h : Pieces body after pieces) {block : Block} {stmt : Inst} {command : Command}
    (hlast : (body.stmtsOf block).getLast? = some stmt)
    (hcommand : body.command? stmt = some command) (hends : command.endsBlock = true) :
    (after.stmtsOf block).getLast? = some stmt := by
  obtain ⟨front, hfront⟩ := List.getLast?_eq_some_iff.mp hlast
  have hstmt := Body.mem_stmts_of_stmtsOf (List.mem_of_getLast? hlast)
  obtain ⟨⟨more, hmore⟩, new, hnew, hends', -⟩ := h.ender hstmt hcommand hends
  have hsplit : after.stmtsOf block = front.flatMap pieces ++ stmt :: more := by
    rw [h.stmtsOf, hfront, List.flatMap_append, List.flatMap_singleton, hmore]
  rw [hsplit, h.wellFormed.enders hsplit hnew hends', List.getLast?_concat]

/-- **THE EDGES DO NOT CHANGE**: what ends a block stays, and nothing else comes to
    end one. -/
theorem successors (h : Pieces body after pieces) (wf : WellFormed body) (block : Block) :
    after.successors block = body.successors block := by
  have hnext := next?_congr h.size block
  by_cases hends : ∃ stmt command, (body.stmtsOf block).getLast? = some stmt ∧
      body.command? stmt = some command ∧ command.endsBlock = true
  · obtain ⟨stmt, command, hlast, hcommand, hends⟩ := hends
    have hstmt := Body.mem_stmts_of_stmtsOf (List.mem_of_getLast? hlast)
    obtain ⟨-, new, hnew, -, htarget, hterminator⟩ := h.ender hstmt hcommand hends
    rw [successors_of_last (h.last hlast hcommand hends) hnew, successors_of_last hlast hcommand,
      htarget, hterminator, edges_congr h.labels h.size]
  · -- no statement ends the block, so no piece does
    have hfalls : ∀ stmt ∈ body.stmtsOf block, ∀ command, body.command? stmt = some command →
        command.endsBlock = false := by
      intro stmt hstmt command hcommand
      refine Bool.not_eq_true _ ▸ fun hend => hends ?_
      obtain ⟨before, rest, hsplit⟩ := List.append_of_mem hstmt
      rw [wf.enders hsplit hcommand hend] at hsplit
      exact ⟨stmt, command, by rw [hsplit, List.getLast?_concat], hcommand, hend⟩
    have hold : body.successors block = .ok (body.next? block).toList := by
      refine successors_of_falls fun last hlast => ?_
      have hmem := List.mem_of_getLast? hlast
      obtain ⟨command, hcommand, -⟩ := wf.command_of_mem hmem
      exact ⟨command, hcommand, hfalls last hmem command hcommand⟩
    rw [hold, ← hnext]
    refine successors_of_falls fun last hlast => ?_
    have hmem := List.mem_of_getLast? hlast
    obtain ⟨new, hnew, -⟩ := h.wellFormed.command_of_mem hmem
    obtain ⟨stmt, command, hstmt, hcommand, hyields⟩ := h.origin wf hmem hnew
    refine ⟨new, hnew, Bool.not_eq_true _ ▸ fun hend => ?_⟩
    cases (hfalls stmt hstmt command hcommand).symm.trans (hyields.ends hend)

/-- Labels are still placed where they stand first. -/
theorem labelled (h : Pieces body after pieces) (hlabelled : ∀ {label : Label} {block : Block},
      body.labels[label.index]? = some (some block) →
      ∃ stmt rest, body.stmtsOf block = stmt :: rest ∧ body.command? stmt = some (.label label))
    {label : Label} {block : Block} (hplaced : after.labels[label.index]? = some (some block)) :
    ∃ stmt rest, after.stmtsOf block = stmt :: rest ∧
      after.command? stmt = some (.label label) := by
  rw [h.labels] at hplaced
  obtain ⟨stmt, rest, hblock, hcommand⟩ := hlabelled hplaced
  obtain ⟨⟨more, hmore⟩, hafter⟩ := h.start hblock hcommand
  exact ⟨stmt, more, hmore, hafter⟩

/-- Every label that stands in a block is placed there. -/
theorem placed (h : Pieces body after pieces) (wf : WellFormed body)
    (hplaced : ∀ {stmt : Inst} {label : Label}, stmt ∈ body.stmts →
      body.command? stmt = some (.label label) →
      ∃ block rest, body.labels[label.index]? = some (some block) ∧
        body.stmtsOf block = stmt :: rest)
    {piece : Inst} {label : Label} (hpiece : piece ∈ after.stmts)
    (hnew : after.command? piece = some (.label label)) :
    ∃ block rest, after.labels[label.index]? = some (some block) ∧
      after.stmtsOf block = piece :: rest := by
  obtain ⟨_, -, hmem⟩ := Body.mem_stmts.mp hpiece
  obtain ⟨stmt, command, hstmt, hcommand, hyields⟩ := h.origin wf hmem hnew
  obtain ⟨rfl, rfl⟩ := hyields.label label rfl
  obtain ⟨block, rest, hlabels, hblock⟩ := hplaced (Body.mem_stmts_of_stmtsOf hstmt) hcommand
  obtain ⟨⟨more, hmore⟩, -⟩ := h.start hblock hcommand
  exact ⟨block, more, h.labels ▸ hlabels, hmore⟩

/-- **THE FLOW GRAPH STAYS** as it was. -/
theorem flow (h : Pieces body after pieces) (wf : WellFormed body) :
    FlowGraph.ofBody after = FlowGraph.ofBody body :=
  ofBody_congr h.size (h.successors wf)

end Pieces

/-- Pieces of a regular body make a regular body. -/
theorem Regular.of_pieces {pieces : Inst → List Inst} (h : body.Regular)
    (hpieces : Pieces body after pieces) : after.Regular where
  wellFormed := hpieces.wellFormed
  unused {piece loc} hpiece hnew := by
    obtain ⟨_, -, hmem⟩ := Body.mem_stmts.mp hpiece
    obtain ⟨stmt, command, hstmt, hcommand, hyields⟩ := hpieces.origin h.wellFormed hmem hnew
    obtain ⟨_, rfl⟩ := hyields.use loc rfl
    exact h.unused (Body.mem_stmts_of_stmtsOf hstmt) hcommand
  labelled := hpieces.labelled h.labelled
  placed := hpieces.placed h.wellFormed h.placed

/-! ## Other registers to preserve -/

namespace Resaved

variable {saved : Inst → List Register} (h : Resaved saved body after)
include h

/-- Labels are at the same statements. -/
theorem label_iff {stmt : Inst} {label : Label} :
    after.command? stmt = some (.label label) ↔ body.command? stmt = some (.label label) := by
  constructor
  · intro hlabel
    obtain ⟨old, hold, heq⟩ := h.command_of hlabel
    cases old with
    | label => cases heq; exact hold
    | save | call | use | jump | branch | ret | exit => cases heq
  · intro hlabel
    rw [h.command?, hlabel]
    rfl

end Resaved

/-- Other registers to save keep a body regular. -/
theorem Regular.resaved {saved : Inst → List Register} (h : body.Regular)
    (hresaved : Resaved saved body after) : after.Regular where
  wellFormed := hresaved.wellFormed h.wellFormed
  unused {stmt loc} hstmt huse := by
    obtain ⟨old, hold, heq⟩ := hresaved.command_of huse
    cases old with
    | use => exact h.unused (hresaved.stmts ▸ hstmt) hold
    | save | call | label | jump | branch | ret | exit => cases heq
  labelled {label block} hplaced := by
    rw [hresaved.labels] at hplaced
    obtain ⟨stmt, rest, hstmts, hlabel⟩ := h.labelled hplaced
    exact ⟨stmt, rest, (hresaved.stmtsOf block).trans hstmts, hresaved.label_iff.mpr hlabel⟩
  placed {stmt label} hstmt hlabel := by
    obtain ⟨block, rest, hplaced, hstmts⟩ :=
      h.placed (hresaved.stmts ▸ hstmt) (hresaved.label_iff.mp hlabel)
    exact ⟨block, rest, hresaved.labels ▸ hplaced, (hresaved.stmtsOf block).trans hstmts⟩

end Body

end DecafBackend
