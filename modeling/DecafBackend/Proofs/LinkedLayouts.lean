import DecafBackend.Proofs.LayoutOutlines
import DecafBackend.Proofs.SlotMaps

/-! # Linked layouts are lists of lists

    A layout that represents an outline has the links of the outline and counts its
    blocks and statements.  Every edit that is allowed succeeds and changes the outline
    in the way that it is named for, whatever came before.

    * `LinkedLayout.view`, `Represents` — layouts and outlines
    * `linkNext_ok`, `linkPrev_ok`, `insertNode_ok`, `removeNode_ok` — single steps
    * `Represents.appendInst`, … — the edits -/

namespace DecafBackend

open Outline

namespace LinkedLayout

/-! ## Layouts and outlines -/

/-- What the links of a layout say. -/
def view (layout : LinkedLayout) : LayoutView where
  node inst := (layout.nodes.get? inst).map fun links => (links.prev.toOption, links.next.toOption)
  block block := (layout.blocks.get? block).map fun links =>
    (links.prev.toOption, links.next.toOption)
  ends block := (layout.blocks.get? block).map fun links =>
    (links.first.toOption, links.last.toOption)
  owner := layout.owners.get?
  head := layout.head.toOption
  tail := layout.tail.toOption

/-- How many statements have links and owners, and how many blocks there are. -/
def counts (layout : LinkedLayout) : Nat × Nat × Nat :=
  (layout.nodes.count, layout.owners.count, layout.blocks.count)

/-- The three maps and their numbers of entries. -/
theorem counts_eq {layout : LinkedLayout} {nodes owners blocks : Nat}
    (h : layout.counts = (nodes, owners, blocks)) :
    layout.nodes.count = nodes ∧ layout.owners.count = owners ∧ layout.blocks.count = blocks := by
  simpa only [counts, Prod.mk.injEq] using h

/-- A layout has the links of an outline, and counts what is in it. -/
structure Represents (layout : LinkedLayout) (outline : Outline) : Prop where
  view : layout.view.Denotes outline
  counts : layout.counts = (outline.stmts.length, outline.stmts.length, outline.length)
  stmtsFit : ∀ inst ∈ outline.stmts, inst.Fits
  blocksFit : ∀ block ∈ outline.blocks, block.Fits

/-! ## Single steps -/

section

variable {layout : LinkedLayout} {inst : Inst} {block : Block}

/-- The links of a statement can be changed. -/
theorem modifyNode_ok {links : InstLinks} (h : layout.nodes.get? inst = some links)
    (f : InstLinks → InstLinks) :
    ∃ nodes, layout.modifyNode inst f = .ok { layout with nodes } ∧
      layout.nodes.Updates inst (some (f links)) nodes ∧ nodes.count = layout.nodes.count := by
  obtain ⟨nodes, hnodes, hupdates, hcount⟩ := SlotMap.modify_at h f
  exact ⟨nodes, Checked.bind_ok hnodes, hupdates, hcount⟩

/-- The links of a placed block can be changed. -/
theorem modifyBlock_ok {links : BlockLinks} (h : layout.blocks.get? block = some links)
    (f : BlockLinks → BlockLinks) :
    ∃ blocks, layout.modifyBlock block f = .ok { layout with blocks } ∧
      layout.blocks.Updates block (some (f links)) blocks ∧
      blocks.count = layout.blocks.count := by
  obtain ⟨blocks, hblocks, hupdates, hcount⟩ := SlotMap.modify_at h f
  exact ⟨blocks, Checked.bind_ok hblocks, hupdates, hcount⟩

/-- The owner of a statement is the block it stands in. -/
theorem modifyOwner_eq (h : layout.owners.get? inst = some block) (f : BlockLinks → BlockLinks) :
    layout.modifyOwner inst f = layout.modifyBlock block f :=
  Checked.bind_ok (SlotMap.get_eq h)

/-- Links what is before a place to what comes next. -/
def linkNext (layout : LinkedLayout) (prev : Option Inst) (block : Block)
    (target : OptionalKey .inst) : Checked LinkedLayout :=
  match prev with
  | some prev => layout.modifyNode prev fun links => { links with next := target }
  | none => layout.modifyBlock block fun links => { links with first := target }

/-- Links what is behind a place to what came before. -/
def linkPrev (layout : LinkedLayout) (next : Option Inst) (block : Block)
    (target : OptionalKey .inst) : Checked LinkedLayout :=
  match next with
  | some next => layout.modifyNode next fun links => { links with prev := target }
  | none => layout.modifyBlock block fun links => { links with last := target }

/-- Other links for one statement. -/
theorem view_updated {nodes : SlotMap .inst InstLinks} {links : InstLinks}
    (h : layout.nodes.Updates inst (some links) nodes) :
    ({ layout with nodes } : LinkedLayout).view = { layout.view with
      node := fun other => if other = inst then some (links.prev.toOption, links.next.toOption)
        else layout.view.node other } := by
  ext1
  case node =>
    funext other
    simp only [view, h other]
    split <;> rfl
  all_goals rfl

/-- Other ends for one block. -/
theorem view_bounded {blocks : SlotMap .block BlockLinks} {old links : BlockLinks}
    (h : layout.blocks.Updates block (some links) blocks)
    (hold : layout.blocks.get? block = some old)
    (hsame : links.prev = old.prev ∧ links.next = old.next) :
    ({ layout with blocks } : LinkedLayout).view = { layout.view with
      ends := fun other => if other = block then some (links.first.toOption, links.last.toOption)
        else layout.view.ends other } := by
  ext1
  case block =>
    funext other
    simp only [view, h other]
    split
    · next heq => rw [heq, hold, Option.map_some, Option.map_some, hsame.1, hsame.2]
    · rfl
  case ends =>
    funext other
    simp only [view, h other]
    split <;> rfl
  all_goals rfl

/-- Linking forwards changes the statement in front or the ends of the block. -/
theorem linkNext_step (prev : Option Inst) (target : OptionalKey .inst)
    (next : LinkedLayout → Checked LinkedLayout) :
    layout.linkNext prev block target >>= next = match prev with
      | some prev => layout.modifyNode prev (fun links => { links with next := target }) >>= next
      | none =>
          layout.modifyBlock block (fun links => { links with first := target }) >>= next := by
  cases prev <;> rfl

/-- Forwards the front of a block may be found through a statement of it. -/
theorem linkNext_owned (prev : Option Inst) (target : OptionalKey .inst)
    (next : LinkedLayout → Checked LinkedLayout) (h : layout.owners.get? inst = some block) :
    layout.linkNext prev block target >>= next = match prev with
      | some prev => layout.modifyNode prev (fun links => { links with next := target }) >>= next
      | none => layout.modifyOwner inst (fun links => { links with first := target }) >>= next := by
  rw [modifyOwner_eq h]
  exact linkNext_step prev target next

/-- Backwards the end of a block may be found through a statement of it. -/
theorem linkPrev_owned (after : Option Inst) (target : OptionalKey .inst)
    (next : LinkedLayout → Checked LinkedLayout) (h : layout.owners.get? inst = some block) :
    layout.linkPrev after block target >>= next = match after with
      | some after => layout.modifyNode after (fun links => { links with prev := target }) >>= next
      | none => layout.modifyOwner inst (fun links => { links with last := target }) >>= next := by
  rw [modifyOwner_eq h]
  cases after <;> rfl

/-- Linking forwards succeeds and sets one link. -/
theorem linkNext_ok {prev : Option Inst}
    (hprev : ∀ inst, prev = some inst → layout.view.node inst ≠ none)
    (hblock : layout.view.ends block ≠ none) (target : OptionalKey .inst) :
    ∃ after, layout.linkNext prev block target = .ok after ∧
      after.view = layout.view.linkNext prev block target.toOption ∧
      after.counts = layout.counts := by
  cases prev with
  | some prev =>
      obtain ⟨_, hnode⟩ := Option.ne_none_iff_exists'.mp (hprev prev rfl)
      obtain ⟨links, hlinks, rfl⟩ := Option.map_eq_some_iff.mp hnode
      obtain ⟨nodes, hnodes, hupdates, hcount⟩ :=
        modifyNode_ok hlinks fun links => { links with next := target }
      refine ⟨_, hnodes, ?_, ?_⟩
      · rw [view_updated hupdates, LayoutView.linkNext_some hnode]
      · rw [counts, counts, hcount]
  | none =>
      obtain ⟨_, hends⟩ := Option.ne_none_iff_exists'.mp hblock
      obtain ⟨links, hlinks, rfl⟩ := Option.map_eq_some_iff.mp hends
      obtain ⟨blocks, hblocks, hupdates, hcount⟩ :=
        modifyBlock_ok hlinks fun links => { links with first := target }
      refine ⟨_, hblocks, ?_, ?_⟩
      · rw [view_bounded hupdates hlinks ⟨rfl, rfl⟩, LayoutView.linkNext_none hends]
      · rw [counts, counts, hcount]

/-- Linking backwards succeeds and sets one link. -/
theorem linkPrev_ok {next : Option Inst}
    (hnext : ∀ inst, next = some inst → layout.view.node inst ≠ none)
    (hblock : layout.view.ends block ≠ none) (target : OptionalKey .inst) :
    ∃ after, layout.linkPrev next block target = .ok after ∧
      after.view = layout.view.linkPrev next block target.toOption ∧
      after.counts = layout.counts := by
  cases next with
  | some next =>
      obtain ⟨_, hnode⟩ := Option.ne_none_iff_exists'.mp (hnext next rfl)
      obtain ⟨links, hlinks, rfl⟩ := Option.map_eq_some_iff.mp hnode
      obtain ⟨nodes, hnodes, hupdates, hcount⟩ :=
        modifyNode_ok hlinks fun links => { links with prev := target }
      refine ⟨_, hnodes, ?_, ?_⟩
      · rw [view_updated hupdates, LayoutView.linkPrev_some hnode]
      · rw [counts, counts, hcount]
  | none =>
      obtain ⟨_, hends⟩ := Option.ne_none_iff_exists'.mp hblock
      obtain ⟨links, hlinks, rfl⟩ := Option.map_eq_some_iff.mp hends
      obtain ⟨blocks, hblocks, hupdates, hcount⟩ :=
        modifyBlock_ok hlinks fun links => { links with last := target }
      refine ⟨_, hblocks, ?_, ?_⟩
      · rw [view_bounded hupdates hlinks ⟨rfl, rfl⟩, LayoutView.linkPrev_none hends]
      · rw [counts, counts, hcount]

section

variable {prev next : Option Inst}
  (hprev : ∀ inst, prev = some inst → layout.view.node inst ≠ none)
  (hnext : ∀ inst, next = some inst → layout.view.node inst ≠ none)
  (hblock : layout.view.ends block ≠ none) (target target' : OptionalKey .inst)
include hprev hnext hblock

/-- Links to both sides, what comes before first. -/
theorem linkNextPrev_ok : ∃ first linked, layout.linkNext prev block target = .ok first ∧
    first.linkPrev next block target' = .ok linked ∧
    first.owners.get? = layout.owners.get? ∧
    linked.view = (layout.view.linkNext prev block target.toOption).linkPrev next block
      target'.toOption ∧ linked.counts = layout.counts := by
  obtain ⟨first, hfirst, hview, hcounts⟩ := linkNext_ok hprev hblock target
  have hnode : ∀ inst, next = some inst → first.view.node inst ≠ none := by
    intro inst hinst
    rw [hview, ne_eq, LayoutView.linkNext_eq_none.1 inst]
    exact hnext inst hinst
  have hends : first.view.ends block ≠ none := by
    rw [hview, ne_eq, LayoutView.linkNext_eq_none.2 block]
    exact hblock
  obtain ⟨linked, hlinked, hview', hcounts'⟩ := linkPrev_ok hnode hends target'
  refine ⟨first, linked, hfirst, hlinked, ?_, ?_, hcounts'.trans hcounts⟩
  · exact congrArg LayoutView.owner hview
  · rw [hview', hview]

/-- Links to both sides, what comes behind first. -/
theorem linkPrevNext_ok : ∃ first linked, layout.linkPrev next block target' = .ok first ∧
    first.linkNext prev block target = .ok linked ∧
    first.owners.get? = layout.owners.get? ∧
    linked.view = (layout.view.linkNext prev block target.toOption).linkPrev next block
      target'.toOption ∧ linked.counts = layout.counts := by
  obtain ⟨first, hfirst, hview, hcounts⟩ := linkPrev_ok hnext hblock target'
  have hnode : ∀ inst, prev = some inst → first.view.node inst ≠ none := by
    intro inst hinst
    rw [hview, ne_eq, LayoutView.linkPrev_eq_none.1 inst]
    exact hprev inst hinst
  have hends : first.view.ends block ≠ none := by
    rw [hview, ne_eq, LayoutView.linkPrev_eq_none.2 block]
    exact hblock
  obtain ⟨linked, hlinked, hview', hcounts'⟩ := linkNext_ok hnode hends target
  refine ⟨first, linked, hfirst, hlinked, ?_, ?_, hcounts'.trans hcounts⟩
  · exact congrArg LayoutView.owner hview
  · rw [hview', hview, LayoutView.link_comm]

end

/-- A statement that has no links gets some. -/
theorem insertNode_ok (hnode : layout.view.node inst = none)
    (howner : layout.view.owner inst = none) (hroom : layout.nodes.count + 1 < wordLimit)
    (hroom' : layout.owners.count + 1 < wordLimit) (block : Block) (links : InstLinks) :
    ∃ final, layout.insertNode inst block links = .ok final ∧
      final.view = layout.view.setNode inst (some (links.prev.toOption, links.next.toOption))
        (some block) ∧
      final.counts =
        (layout.nodes.count + 1, layout.owners.count + 1, layout.blocks.count) := by
  have hnone : layout.nodes.get? inst = none := Option.map_eq_none_iff.mp hnode
  obtain ⟨nodes, hnodes, hupdates, hcount⟩ := SlotMap.insert_new hnone hroom links
  obtain ⟨owners, howners, hupdates', hcount'⟩ := SlotMap.insert_new howner hroom' block
  refine ⟨{ layout with nodes, owners }, ?_, ?_, ?_⟩
  · rw [insertNode, Checked.bind_ok hnodes]
    dsimp only
    rw [Checked.bind_ok howners]
    rfl
  · ext1
    case node =>
      funext other
      simp only [view, LayoutView.setNode, hupdates other]
      split <;> rfl
    case owner =>
      funext other
      simp only [view, LayoutView.setNode, hupdates' other]
    all_goals rfl
  · rw [counts, hcount, hcount']

/-- Takes the links of a statement away. -/
def removeNode (layout : LinkedLayout) (inst : Inst) : Checked LinkedLayout := do
  let (_, nodes) ← layout.nodes.remove inst
  let (_, owners) ← layout.owners.remove inst
  return { layout with nodes, owners }

/-- A statement that has links loses them. -/
theorem removeNode_ok (hnode : layout.view.node inst ≠ none)
    (howner : layout.view.owner inst ≠ none) (hcount : layout.nodes.count ≠ 0)
    (hcount' : layout.owners.count ≠ 0) :
    ∃ final, layout.removeNode inst = .ok final ∧
      final.view = layout.view.setNode inst none none ∧
      final.counts =
        (layout.nodes.count - 1, layout.owners.count - 1, layout.blocks.count) := by
  obtain ⟨_, hsome⟩ := Option.ne_none_iff_exists'.mp hnode
  obtain ⟨links, hlinks, -⟩ := Option.map_eq_some_iff.mp hsome
  obtain ⟨block, hblock⟩ := Option.ne_none_iff_exists'.mp howner
  obtain ⟨nodes, hnodes, hupdates, hless⟩ := SlotMap.remove_at hlinks hcount
  obtain ⟨owners, howners, hupdates', hless'⟩ := SlotMap.remove_at hblock hcount'
  refine ⟨{ layout with nodes, owners }, ?_, ?_, ?_⟩
  · rw [removeNode, Checked.bind_ok hnodes]
    dsimp only
    rw [Checked.bind_ok howners]
    rfl
  · ext1
    case node =>
      funext other
      simp only [view, LayoutView.setNode, hupdates other]
      split <;> rfl
    case owner =>
      funext other
      simp only [view, LayoutView.setNode, hupdates' other]
    all_goals rfl
  · rw [counts, hless, hless']

end

/-! ## Statements put in and taken out -/

section

variable {layout : LinkedLayout} {front behind : Outline} {block : Block}
  {before after : List Inst} {inst : Inst}

/-- There is always room for one more. -/
theorem Represents.room {outline : Outline} (h : layout.Represents outline) :
    layout.nodes.count + 1 < wordLimit ∧ layout.owners.count + 1 < wordLimit ∧
      layout.blocks.count + 1 < wordLimit := by
  have hstmts := Key.length_le h.view.stmtsNodup fun inst hinst => (h.stmtsFit inst hinst).stored
  have hblocks := Key.length_le h.view.blocksNodup fun block hblock =>
    (h.blocksFit block hblock).stored
  rw [Outline.blocks, List.length_map] at hblocks
  obtain ⟨hnodes, howners, hcount⟩ := counts_eq h.counts
  rw [hnodes, howners, hcount]
  have hlimit : KeyKind.inst.limit + 1 < wordLimit ∧ KeyKind.block.limit + 1 < wordLimit := by
    decide
  omega

/-- **A STATEMENT IS PUT IN** once its neighbours are linked to it. -/
theorem Represents.put (h : layout.Represents (front ++ (block, before ++ after) :: behind))
    (hnew : inst ∉ stmts (front ++ (block, before ++ after) :: behind)) (hfits : inst.Fits)
    {linked : LinkedLayout}
    (hview : linked.view = (layout.view.linkNext before.getLast? block (some inst)).linkPrev
      after.head? block (some inst))
    (hcounts : linked.counts = layout.counts) (links : InstLinks)
    (hprev : links.prev.toOption = before.getLast?) (hnext : links.next.toOption = after.head?) :
    ∃ final, linked.insertNode inst block links = .ok final ∧
      final.Represents (front ++ (block, before ++ inst :: after) :: behind) := by
  have hother : inst ∉ before ++ after := fun hmem => hnew (mem_stmts_of_mem hmem)
  have hnode : linked.view.node inst = none := by
    rw [hview, LayoutView.node_link_other hother]
    exact Classical.byContradiction fun hlinks => hnew (h.view.node_iff.mp hlinks)
  have howner : linked.view.owner inst = none := by
    rw [hview]
    exact Classical.byContradiction fun howner => hnew (h.view.owner_iff.mp howner)
  obtain ⟨hnodes, howners, hblocks⟩ := counts_eq hcounts
  obtain ⟨hroom, hroom', -⟩ := h.room
  rw [← hnodes] at hroom
  rw [← howners] at hroom'
  obtain ⟨final, hfinal, hview', hcounts'⟩ :=
    insertNode_ok hnode howner hroom hroom' block links
  refine ⟨final, hfinal, ?_, ?_, fun other hmem => ?_, ?_⟩
  · rw [hview', hview, hprev, hnext]
    exact h.view.put hnew
  · obtain ⟨hsize, hsize', hsize''⟩ := counts_eq h.counts
    rw [hcounts', hnodes, howners, hblocks, hsize, hsize', hsize'',
      stmts_middle.length_eq, List.length_append, List.length_append]
    rfl
  · rcases List.mem_cons.mp (stmts_middle.mem_iff.mp hmem) with rfl | hmem
    · exact hfits
    · exact h.stmtsFit other hmem
  · intro other hmem
    exact h.blocksFit other ((blocks_congr (before ++ inst :: after)) ▸ hmem)

/-- **A STATEMENT IS TAKEN OUT** once its neighbours are linked to each other. -/
theorem Represents.drop
    (h : layout.Represents (front ++ (block, before ++ inst :: after) :: behind))
    {linked : LinkedLayout}
    (hview : linked.view = (layout.view.linkNext before.getLast? block after.head?).linkPrev
      after.head? block before.getLast?)
    (hcounts : linked.counts = layout.counts) :
    ∃ final, linked.removeNode inst = .ok final ∧
      final.Represents (front ++ (block, before ++ after) :: behind) := by
  have hmem : inst ∈ before ++ inst :: after := List.mem_append_right _ List.mem_cons_self
  obtain ⟨hout, -⟩ := List.nodup_cons.mp (stmts_middle.nodup_iff.mp h.view.stmtsNodup)
  have hother : inst ∉ before ++ after := fun hmem => hout (mem_stmts_of_mem hmem)
  have hnode : linked.view.node inst ≠ none := by
    rw [hview, LayoutView.node_link_other hother]
    exact h.view.node_iff.mpr (mem_stmts_of_mem hmem)
  have howner : linked.view.owner inst ≠ none := by
    rw [hview]
    exact h.view.owner_iff.mpr (mem_stmts_of_mem hmem)
  -- the statement is in the lists, so neither count is zero
  have hall := h.counts
  rw [stmts_middle.length_eq, List.length_cons, List.length_append] at hall
  rw [hall] at hcounts
  obtain ⟨hnodes, howners, hblocks⟩ := counts_eq hcounts
  obtain ⟨final, hfinal, hview', hcounts'⟩ :=
    removeNode_ok hnode howner (by omega) (by omega)
  refine ⟨final, hfinal, ?_, ?_, fun other hmem => ?_, fun other hmem => ?_⟩
  · rw [hview', hview]
    exact h.view.drop
  · rw [hcounts', hnodes, howners, hblocks, List.length_append]
    rfl
  · exact h.stmtsFit other (stmts_middle.mem_iff.mpr (List.mem_cons_of_mem _ hmem))
  · exact h.blocksFit other ((blocks_congr (before ++ after)) ▸ hmem)

/-! ## The edits -/

theorem Represents.checkFresh {outline : Outline} (h : layout.Represents outline)
    (hnew : inst ∉ outline.stmts) : layout.checkFresh inst = .ok () := by
  have hnone : layout.nodes.get? inst = none := by
    refine Classical.byContradiction fun hlinks => hnew (h.view.node_iff.mp fun hnode => ?_)
    exact hlinks (Option.map_eq_none_iff.mp hnode)
  rw [LinkedLayout.checkFresh, SlotMap.contains, hnone]
  rfl

/-- What is on either side of a cut has links, and so has the block. -/
theorem Represents.cut (h : layout.Represents (front ++ (block, before ++ after) :: behind)) :
    (∀ other, before.getLast? = some other →
      layout.view.node other ≠ none ∧ other.isReserved = false) ∧
    (∀ other, after.head? = some other →
      layout.view.node other ≠ none ∧ other.isReserved = false) ∧
    layout.view.ends block ≠ none := by
  have hall : ∀ other ∈ before ++ after,
      layout.view.node other ≠ none ∧ other.isReserved = false := by
    intro other hmem
    have hstmt := @mem_stmts_of_mem front behind block (before ++ after) other hmem
    exact ⟨h.view.node_iff.mpr hstmt, (h.stmtsFit other hstmt).used⟩
  refine ⟨fun other hother => ?_, fun other hother => ?_, ?_⟩
  · exact hall other (List.mem_append_left _ (List.mem_of_getLast? hother))
  · exact hall other (List.mem_append_right _ (List.mem_of_head? hother))
  · exact h.view.ends_iff.mpr (blocks_perm.mem_iff.mpr List.mem_cons_self)

/-- **APPENDING** a statement to a block. -/
theorem Represents.appendInst {insts : List Inst}
    (h : layout.Represents (front ++ (block, insts) :: behind))
    (hnew : inst ∉ stmts (front ++ (block, insts) :: behind)) (hfits : inst.Fits) :
    ∃ final, layout.appendInst inst block = .ok final ∧
      final.Represents (front ++ (block, insts ++ [inst]) :: behind) := by
  -- the place at the end of a block is a cut with nothing behind it
  rw [← List.append_nil insts] at h hnew
  obtain ⟨hprev, hnext, hblock⟩ := h.cut
  obtain ⟨first, linked, hfirst, hlinked, -, hview, hcounts⟩ :=
    linkPrevNext_ok (fun other ho => (hprev other ho).1) (fun other ho => (hnext other ho).1)
      hblock ⟨inst⟩ ⟨inst⟩
  rw [OptionalKey.toOption_mk hfits.used] at hview
  obtain ⟨stored, hstored, hsame⟩ := OptionalKey.ofOption_ok fun other ho => (hprev other ho).2
  obtain ⟨final, hfinal, hrepresents⟩ :=
    h.put hnew hfits hview hcounts ⟨stored, .none⟩ hsame OptionalKey.toOption_none
  refine ⟨final, ?_, hrepresents⟩
  obtain ⟨links, hlinks, hends⟩ := Option.map_eq_some_iff.mp
    (h.view.holds _ (List.mem_append_right _ List.mem_cons_self)).ends
  have hlast : links.last.toOption = insts.getLast? := by
    rw [(Prod.mk.inj hends).2, List.append_nil]
  rw [LinkedLayout.appendInst, Checked.bind_ok (h.checkFresh hnew),
    Checked.bind_ok (SlotMap.get_eq hlinks), Checked.bind_ok (OptionalKey.replace_eq hfits.used _),
    hlast]
  refine (Checked.bind_ok hfirst).trans ((linkNext_step _ _ _).symm.trans ?_)
  exact (Checked.bind_ok hlinked).trans ((Checked.bind_ok hstored).trans hfinal)

/-- **INSERTING BEFORE** a statement. -/
theorem Represents.insertBefore {anchor : Inst}
    (h : layout.Represents (front ++ (block, before ++ anchor :: after) :: behind))
    (hnew : inst ∉ stmts (front ++ (block, before ++ anchor :: after) :: behind))
    (hfits : inst.Fits) :
    ∃ final, layout.insertBefore inst anchor = .ok final ∧
      final.Represents (front ++ (block, before ++ inst :: anchor :: after) :: behind) := by
  obtain ⟨hprev, hnext, hblock⟩ := h.cut
  obtain ⟨first, linked, hfirst, hlinked, howners, hview, hcounts⟩ :=
    linkPrevNext_ok (fun other ho => (hprev other ho).1) (fun other ho => (hnext other ho).1)
      hblock ⟨inst⟩ ⟨inst⟩
  rw [OptionalKey.toOption_mk hfits.used] at hview
  obtain ⟨stored, hstored, hsame⟩ := OptionalKey.ofOption_ok fun other ho => (hprev other ho).2
  have hanchor := (hnext anchor rfl).2
  obtain ⟨final, hfinal, hrepresents⟩ := h.put hnew hfits hview hcounts
    ⟨stored, ⟨anchor⟩⟩ hsame (OptionalKey.toOption_mk hanchor)
  refine ⟨final, ?_, hrepresents⟩
  obtain ⟨links, hlinks, hneighbours⟩ := Option.map_eq_some_iff.mp h.view.node_eq
  have howner : first.owners.get? anchor = some block := by
    rw [howners]
    exact h.view.owner_eq
  have howner' : linked.owners.get? anchor = some block :=
    (congrFun (congrArg LayoutView.owner hview) anchor).trans h.view.owner_eq
  rw [LinkedLayout.insertBefore, Checked.bind_ok (h.checkFresh hnew),
    Checked.bind_ok (SlotMap.get_eq hlinks), Checked.bind_ok (OptionalKey.replace_eq hfits.used _),
    (Prod.mk.inj hneighbours).1]
  refine (Checked.bind_ok hfirst).trans ((linkNext_owned _ _ _ howner).symm.trans ?_)
  refine (Checked.bind_ok hlinked).trans ((Checked.bind_ok (SlotMap.get_eq howner')).trans ?_)
  exact (Checked.bind_ok hstored).trans
    ((Checked.bind_ok (OptionalKey.some_eq hanchor)).trans hfinal)

/-- **INSERTING BEHIND** a statement. -/
theorem Represents.insertAfter {anchor : Inst}
    (h : layout.Represents (front ++ (block, before ++ anchor :: after) :: behind))
    (hnew : inst ∉ stmts (front ++ (block, before ++ anchor :: after) :: behind))
    (hfits : inst.Fits) :
    ∃ final, layout.insertAfter inst anchor = .ok final ∧
      final.Represents (front ++ (block, before ++ anchor :: inst :: after) :: behind) := by
  obtain ⟨links, hlinks, hneighbours⟩ := Option.map_eq_some_iff.mp h.view.node_eq
  have howner := h.view.owner_eq
  -- the cut is behind the anchor, which is the last statement of its front part
  rw [List.append_cons before anchor after] at h hnew
  rw [List.append_cons before anchor (inst :: after)]
  obtain ⟨hprev, hnext, hblock⟩ := h.cut
  obtain ⟨first, linked, hfirst, hlinked, howners, hview, hcounts⟩ :=
    linkNextPrev_ok (fun other ho => (hprev other ho).1) (fun other ho => (hnext other ho).1)
      hblock ⟨inst⟩ ⟨inst⟩
  rw [OptionalKey.toOption_mk hfits.used] at hview
  obtain ⟨stored, hstored, hsame⟩ := OptionalKey.ofOption_ok fun other ho => (hnext other ho).2
  have hlast : (before ++ [anchor]).getLast? = some anchor := List.getLast?_concat
  have hanchor := (hprev anchor hlast).2
  obtain ⟨final, hfinal, hrepresents⟩ := h.put hnew hfits hview hcounts
    ⟨⟨anchor⟩, stored⟩ ((OptionalKey.toOption_mk hanchor).trans hlast.symm) hsame
  refine ⟨final, ?_, hrepresents⟩
  have howner' : linked.owners.get? anchor = some block :=
    (congrFun (congrArg LayoutView.owner hview) anchor).trans howner
  replace howner : first.owners.get? anchor = some block := by
    rw [howners]
    exact howner
  rw [hlast] at hfirst
  rw [LinkedLayout.insertAfter, Checked.bind_ok (h.checkFresh hnew),
    Checked.bind_ok (SlotMap.get_eq hlinks), Checked.bind_ok (OptionalKey.replace_eq hfits.used _),
    (Prod.mk.inj hneighbours).2]
  refine (Checked.bind_ok hfirst).trans ((linkPrev_owned _ _ _ howner).symm.trans ?_)
  refine (Checked.bind_ok hlinked).trans ((Checked.bind_ok (SlotMap.get_eq howner')).trans ?_)
  exact (Checked.bind_ok (OptionalKey.some_eq hanchor)).trans
    ((Checked.bind_ok hstored).trans hfinal)

/-- **REMOVING** a statement. -/
theorem Represents.removeInst
    (h : layout.Represents (front ++ (block, before ++ inst :: after) :: behind)) :
    ∃ final, layout.removeInst inst = .ok final ∧
      final.Represents (front ++ (block, before ++ after) :: behind) := by
  obtain ⟨links, hlinks, hneighbours⟩ := Option.map_eq_some_iff.mp h.view.node_eq
  obtain ⟨hprev, hnext⟩ := Prod.mk.inj hneighbours
  have hnode : ∀ other ∈ before ++ inst :: after, layout.view.node other ≠ none :=
    fun other hmem => h.view.node_iff.mpr (mem_stmts_of_mem hmem)
  obtain ⟨first, linked, hfirst, hlinked, howners, hview, hcounts⟩ := linkNextPrev_ok
    (fun other ho => hnode other (List.mem_append_left _ (List.mem_of_getLast? ho)))
    (fun other ho => hnode other
      (List.mem_append_right _ (List.mem_cons_of_mem _ (List.mem_of_head? ho))))
    h.cut.2.2 links.next links.prev
  rw [hprev, hnext] at hview
  obtain ⟨final, hfinal, hrepresents⟩ := h.drop hview hcounts
  refine ⟨final, ?_, hrepresents⟩
  have howner : first.owners.get? inst = some block := by
    rw [howners]
    exact h.view.owner_eq
  rw [LinkedLayout.removeInst, Checked.bind_ok (SlotMap.get_eq hlinks), hprev, hnext]
  refine (linkNext_owned _ _ _ h.view.owner_eq).symm.trans ((Checked.bind_ok hfirst).trans ?_)
  exact (linkPrev_owned _ _ _ howner).symm.trans ((Checked.bind_ok hlinked).trans hfinal)

/-- **REPLACING** a statement. -/
theorem Represents.replaceInst {new : Inst}
    (h : layout.Represents (front ++ (block, before ++ inst :: after) :: behind))
    (hnew : new ∉ stmts (front ++ (block, before ++ inst :: after) :: behind))
    (hfits : new.Fits) :
    ∃ final, layout.replaceInst inst new = .ok final ∧
      final.Represents (front ++ (block, before ++ new :: after) :: behind) := by
  obtain ⟨middle, hmiddle, hrepresents⟩ := h.insertAfter hnew hfits
  obtain ⟨final, hfinal, hrepresents⟩ := hrepresents.removeInst
  exact ⟨final, (Checked.bind_ok hmiddle).trans hfinal, hrepresents⟩

end

/-! ## Blocks at the end -/

section

variable {layout : LinkedLayout} {outline : Outline} {block : Block}

/-- Links the last block, or the layout itself, to a block that comes behind. -/
def linkBlock (layout : LinkedLayout) (prev : Option Block) (target : OptionalKey .block) :
    Checked LinkedLayout :=
  match prev with
  | some prev => layout.modifyBlock prev fun links => { links with next := target }
  | none => pure { layout with head := target }

/-- Linking a block changes the last one or the head of the chain. -/
theorem linkBlock_step (prev : Option Block) (target : OptionalKey .block)
    (next : LinkedLayout → Checked LinkedLayout) :
    layout.linkBlock prev target >>= next = match prev with
      | some prev => layout.modifyBlock prev (fun links => { links with next := target }) >>= next
      | none => pure { layout with head := target } >>= next := by
  cases prev <;> rfl

/-- A new block is linked behind the last one, or becomes the first one. -/
theorem linkBlock_ok (h : layout.Represents outline) (hused : block.isReserved = false) :
    ∃ linked, ({ layout with tail := ⟨block⟩ } : LinkedLayout).linkBlock layout.tail.toOption
        ⟨block⟩ = .ok linked ∧
      linked.view = { layout.view with
        block := layout.view.block.setNext layout.view.tail (some block)
        head := layout.view.head.or (some block)
        tail := some block } ∧
      linked.counts = layout.counts := by
  have hstored := OptionalKey.toOption_mk hused
  have htail : layout.view.tail = outline.blocks.getLast? := h.view.tail
  cases hprev : layout.tail.toOption with
  | none =>
      -- without a last block there are no blocks, so the new one is the first one too
      have hempty : outline.blocks = [] := List.getLast?_eq_none_iff.mp (htail.symm.trans hprev)
      refine ⟨_, rfl, ?_, rfl⟩
      ext1
      case block =>
        have hnone : layout.view.tail = none := hprev
        rw [hnone]
        exact (layout.view.block.setNext_none (some block)).symm
      case head =>
        rw [h.view.head, hempty]
        exact hstored
      case tail => exact hstored
      all_goals rfl
  | some prev =>
      have hmem : prev ∈ outline.blocks := List.mem_of_getLast? (htail.symm.trans hprev)
      obtain ⟨_, hends⟩ := Option.ne_none_iff_exists'.mp (h.view.ends_iff.mpr hmem)
      obtain ⟨links, hlinks, -⟩ := Option.map_eq_some_iff.mp hends
      obtain ⟨blocks, hblocks, hupdates, hcount⟩ := @modifyBlock_ok
        { layout with tail := ⟨block⟩ } prev links hlinks fun links =>
          { links with next := ⟨block⟩ }
      refine ⟨_, hblocks, ?_, ?_⟩
      · ext1
        case block =>
          funext other
          simp only [view, hprev, Links.setNext, hupdates other, Option.some.injEq]
          by_cases heq : other = prev
          · subst heq
            simp only [if_true, hlinks, Option.map_some, hstored]
          · simp only [heq, Ne.symm heq, if_false]
        case ends =>
          funext other
          simp only [view, hupdates other]
          by_cases heq : other = prev
          · subst heq
            simp only [if_true, hlinks, Option.map_some]
          · simp only [heq, if_false]
        case head =>
          cases hhead : layout.view.head with
          | none =>
              have hempty := List.head?_eq_none_iff.mp (h.view.head.symm.trans hhead)
              rw [hempty] at hmem
              cases hmem
          | some first => exact hhead
        case tail => exact hstored
        all_goals rfl
      · rw [counts, counts, hcount]

/-- A block is placed once the last one is linked to it. -/
theorem view_addBlock {linked : LinkedLayout} {blocks : SlotMap .block BlockLinks}
    {stored : OptionalKey .block} (hview : linked.view = { layout.view with
      block := layout.view.block.setNext layout.view.tail (some block)
      head := layout.view.head.or (some block)
      tail := some block })
    (hsame : stored.toOption = layout.view.tail)
    (h : linked.blocks.Updates block (some ⟨stored, .none, .none, .none⟩) blocks) :
    ({ linked with blocks } : LinkedLayout).view = layout.view.addBlock block := by
  ext1
  case block =>
    funext other
    simp only [LinkedLayout.view, LayoutView.addBlock, h other]
    split
    · rw [Option.map_some, hsame, OptionalKey.toOption_none]
      rfl
    · exact congrFun (congrArg LayoutView.block hview) other
  case ends =>
    funext other
    simp only [LinkedLayout.view, LayoutView.addBlock, h other]
    split
    · rw [Option.map_some, OptionalKey.toOption_none]
    · exact congrFun (congrArg LayoutView.ends hview) other
  case node => exact (congrArg LayoutView.node hview).trans rfl
  case owner => exact (congrArg LayoutView.owner hview).trans rfl
  case head => exact (congrArg LayoutView.head hview).trans rfl
  case tail => exact (congrArg LayoutView.tail hview).trans rfl

/-- **APPENDING** a block. -/
theorem Represents.appendBlock (h : layout.Represents outline) (hnew : block ∉ outline.blocks)
    (hfits : block.Fits) :
    ∃ final, layout.appendBlock block = .ok final ∧
      final.Represents (outline ++ [(block, [])]) := by
  obtain ⟨linked, hlinked, hview, hcounts⟩ := linkBlock_ok h hfits.used
  have hreserved : ∀ prev, layout.tail.toOption = some prev → prev.isReserved = false := by
    intro prev hprev
    have hmem : prev ∈ outline.blocks := List.mem_of_getLast? (h.view.tail.symm.trans hprev)
    exact (h.blocksFit prev hmem).used
  obtain ⟨stored, hstored, hsame⟩ := OptionalKey.ofOption_ok hreserved
  have hnone : layout.view.ends block = none :=
    Classical.byContradiction fun hends => hnew (h.view.ends_iff.mp hends)
  have hends : linked.view.ends block = none :=
    (congrFun (congrArg LayoutView.ends hview) block).trans hnone
  obtain ⟨hnodes, howners, hblocks⟩ := counts_eq hcounts
  have hroom := h.room.2.2
  rw [← hblocks] at hroom
  obtain ⟨blocks, hinserted, hupdates, hcount⟩ := SlotMap.insert_new
    (Option.map_eq_none_iff.mp hends) hroom ⟨stored, .none, .none, .none⟩
  have hadded := view_addBlock hview hsame hupdates
  have hstmts : stmts (outline ++ [(block, [])]) = outline.stmts :=
    (stmts_append _ _).trans (List.append_nil _)
  refine ⟨{ linked with blocks }, ?_, hadded ▸ h.view.addBlock hnew, ?_, ?_, fun other hmem => ?_⟩
  · have habsent : layout.blocks.contains block = false := by
      rw [SlotMap.contains, Option.map_eq_none_iff.mp hnone]
      rfl
    rw [LinkedLayout.appendBlock, habsent]
    refine (Checked.bind_ok (OptionalKey.replace_eq hfits.used _)).trans ?_
    refine (linkBlock_step _ _ _).symm.trans ((Checked.bind_ok hlinked).trans ?_)
    exact (Checked.bind_ok hstored).trans (Checked.bind_ok hinserted)
  · obtain ⟨hsize, hsize', hsize''⟩ := counts_eq h.counts
    rw [LinkedLayout.counts, hnodes, howners, hcount, hblocks, hsize, hsize', hsize'', hstmts,
      List.length_append]
    rfl
  · rw [hstmts]
    exact h.stmtsFit
  · rw [blocks_append] at hmem
    rcases List.mem_append.mp hmem with hmem | hmem
    · exact h.blocksFit other hmem
    · exact List.mem_singleton.mp hmem ▸ hfits

end

end LinkedLayout

end DecafBackend
