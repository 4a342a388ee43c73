import DecafBackend.Proofs.LinkedChains

/-! # Outlines of layouts

    An outline lists blocks in order, and the statements of each block in order.  The
    links of a layout, read as options, denote an outline if its blocks are chained
    from the head to the tail, the statements of each block are chained from the first
    to the last, and nothing else has links.  What puts a statement between two others
    or takes one out is then a change of the outline at one place.

    * `Outline`, `LayoutView`, `LayoutView.Denotes` — what the links say
    * `LayoutView.Denotes.rewrite` — a change within one block
    * `Denotes.put`, `Denotes.drop`, `Denotes.addBlock` — the changes -/

namespace DecafBackend

/-- Blocks in order, each with its statements in order. -/
abbrev Outline := List (Block × List Inst)

namespace Outline

/-- The blocks in order. -/
def blocks (outline : Outline) : List Block := outline.map Prod.fst

/-- The statements of all blocks. -/
def stmts (outline : Outline) : List Inst := outline.flatMap Prod.snd

/-- The blocks of two parts. -/
theorem blocks_append (front back : Outline) :
    blocks (front ++ back) = blocks front ++ blocks back := List.map_append

/-- The statements of two parts. -/
theorem stmts_append (front back : Outline) :
    stmts (front ++ back) = stmts front ++ stmts back := List.flatMap_append

theorem mem_blocks {outline : Outline} {entry : Block × List Inst} (h : entry ∈ outline) :
    entry.1 ∈ outline.blocks := List.mem_map_of_mem h

theorem mem_stmts {outline : Outline} {inst : Inst} :
    inst ∈ outline.stmts ↔ ∃ entry ∈ outline, inst ∈ entry.2 := List.mem_flatMap

/-- A statement stands somewhere in a block. -/
theorem exists_split {outline : Outline} {inst : Inst} (h : inst ∈ outline.stmts) :
    ∃ front block before after behind,
      outline = front ++ (block, before ++ inst :: after) :: behind := by
  obtain ⟨⟨block, insts⟩, hentry, hinst⟩ := mem_stmts.mp h
  obtain ⟨front, behind, rfl⟩ := List.append_of_mem hentry
  obtain ⟨before, after, rfl⟩ := List.append_of_mem hinst
  exact ⟨front, block, before, after, behind, rfl⟩

section

variable {front behind : Outline} {block : Block} {insts : List Inst}

/-- A block stands somewhere among the others. -/
theorem blocks_perm : (blocks (front ++ (block, insts) :: behind)).Perm
    (block :: blocks (front ++ behind)) := List.perm_middle.map Prod.fst

/-- The statements of a block stand somewhere among the others. -/
theorem stmts_perm : (stmts (front ++ (block, insts) :: behind)).Perm
    (insts ++ stmts (front ++ behind)) := List.perm_middle.flatMap_right Prod.snd

theorem mem_stmts_of_mem {inst : Inst} (h : inst ∈ insts) :
    inst ∈ stmts (front ++ (block, insts) :: behind) :=
  stmts_perm.mem_iff.mpr (List.mem_append_left _ h)

/-- The statements do not matter to the order of blocks. -/
theorem blocks_congr (insts' : List Inst) : blocks (front ++ (block, insts') :: behind) =
    blocks (front ++ (block, insts) :: behind) := by
  rw [blocks_append, blocks_append]
  rfl

/-- One statement, and all the others. -/
theorem stmts_middle {before after : List Inst} {inst : Inst} :
    (stmts (front ++ (block, before ++ inst :: after) :: behind)).Perm
      (inst :: stmts (front ++ (block, before ++ after) :: behind)) :=
  stmts_perm.trans ((List.perm_middle.append_right _).trans (stmts_perm.symm.cons inst))

/-- A block stands in one place. -/
theorem block_ne {entry : Block × List Inst}
    (h : (blocks (front ++ (block, insts) :: behind)).Nodup) (hentry : entry ∈ front ++ behind) :
    entry.1 ≠ block := by
  rintro rfl
  exact (List.nodup_cons.mp (blocks_perm.nodup_iff.mp h)).1 (mem_blocks hentry)

/-- A statement stands in one block. -/
theorem not_mem_insts {entry : Block × List Inst} {inst : Inst}
    (h : (stmts (front ++ (block, insts) :: behind)).Nodup) (hentry : entry ∈ front ++ behind)
    (hinst : inst ∈ entry.2) : inst ∉ insts := by
  intro hmem
  have hdisjoint := (List.nodup_append.mp (stmts_perm.nodup_iff.mp h)).2.2
  exact hdisjoint inst hmem inst (mem_stmts.mpr ⟨entry, hentry, hinst⟩) rfl

end

end Outline

open Outline

/-- What the links of a layout say. -/
@[ext] structure LayoutView where
  /-- The neighbours of statements. -/
  node : Links Inst
  /-- The neighbours of blocks. -/
  block : Links Block
  /-- The first and the last statement of blocks. -/
  ends : Block → Option (Option Inst × Option Inst)
  /-- The blocks that statements are in. -/
  owner : Inst → Option Block
  /-- The first block. -/
  head : Option Block
  /-- The last block. -/
  tail : Option Block

namespace LayoutView

/-- The links of a block and its statements. -/
structure Holds (view : LayoutView) (block : Block) (insts : List Inst) : Prop where
  ends : view.ends block = some (insts.head?, insts.getLast?)
  chain : Chained view.node none insts none
  owner : ∀ inst ∈ insts, view.owner inst = some block

/-- All links are those of an outline. -/
structure Denotes (view : LayoutView) (outline : Outline) : Prop where
  head : view.head = outline.blocks.head?
  tail : view.tail = outline.blocks.getLast?
  chain : Chained view.block none outline.blocks none
  holds : ∀ entry ∈ outline, view.Holds entry.1 entry.2
  ends : ∀ block, view.ends block ≠ none → block ∈ outline.blocks
  nodes : ∀ inst, view.node inst ≠ none → inst ∈ outline.stmts
  owners : ∀ inst, view.owner inst ≠ none → inst ∈ outline.stmts
  blocksNodup : outline.blocks.Nodup
  stmtsNodup : outline.stmts.Nodup

section

variable {view : LayoutView} {outline front behind : Outline} {block : Block} {inst : Inst}
  {before after : List Inst}

/-- The neighbours of a statement. -/
theorem Denotes.node_eq (h : view.Denotes (front ++ (block, before ++ inst :: after) :: behind)) :
    view.node inst = some (before.getLast?, after.head?) := by
  have hholds := h.holds _ (List.mem_append_right _ List.mem_cons_self)
  rw [hholds.chain.at, Option.or_none, Option.or_none]

/-- A statement has its block as owner. -/
theorem Denotes.owner_eq (h : view.Denotes (front ++ (block, before ++ inst :: after) :: behind)) :
    view.owner inst = some block := by
  have hholds := h.holds _ (List.mem_append_right _ List.mem_cons_self)
  exact hholds.owner inst (List.mem_append_right _ List.mem_cons_self)

/-- All statements have links, and no others do. -/
theorem Denotes.node_iff (h : view.Denotes outline) :
    view.node inst ≠ none ↔ inst ∈ outline.stmts := by
  refine ⟨h.nodes inst, fun hmem => ?_⟩
  obtain ⟨front, block, before, after, behind, rfl⟩ := exists_split hmem
  rw [h.node_eq]
  exact Option.some_ne_none _

/-- What has an owner is a statement of the outline. -/
theorem Denotes.owner_iff (h : view.Denotes outline) :
    view.owner inst ≠ none ↔ inst ∈ outline.stmts := by
  refine ⟨h.owners inst, fun hmem => ?_⟩
  obtain ⟨front, block, before, after, behind, rfl⟩ := exists_split hmem
  rw [h.owner_eq]
  exact Option.some_ne_none _

/-- What has ends is a block of the outline. -/
theorem Denotes.ends_iff (h : view.Denotes outline) :
    view.ends block ≠ none ↔ block ∈ outline.blocks := by
  refine ⟨h.ends block, fun hmem => ?_⟩
  obtain ⟨entry, hentry, rfl⟩ := List.mem_map.mp hmem
  rw [(h.holds entry hentry).ends]
  exact Option.some_ne_none _

end

/-! ## Changes of views -/

/-- Says what is after a statement, or what is first in a block. -/
def linkNext (view : LayoutView) (inst : Option Inst) (block : Block) (target : Option Inst) :
    LayoutView :=
  { view with
    node := view.node.setNext inst target
    ends := fun other =>
      if inst = none ∧ other = block then (view.ends other).map fun ends => (target, ends.2)
      else view.ends other }

/-- Says what is before a statement, or what is last in a block. -/
def linkPrev (view : LayoutView) (inst : Option Inst) (block : Block) (target : Option Inst) :
    LayoutView :=
  { view with
    node := view.node.setPrev inst target
    ends := fun other =>
      if inst = none ∧ other = block then (view.ends other).map fun ends => (ends.1, target)
      else view.ends other }

/-- Says all about a statement. -/
def setNode (view : LayoutView) (inst : Inst) (links : Option (Option Inst × Option Inst))
    (owner : Option Block) : LayoutView :=
  { view with
    node := fun other => if other = inst then links else view.node other
    owner := fun other => if other = inst then owner else view.owner other }

/-- Puts a statement between two others, or at an end of a block. -/
def put (view : LayoutView) (inst : Inst) (block : Block) (prev next : Option Inst) : LayoutView :=
  ((view.linkNext prev block (some inst)).linkPrev next block (some inst)).setNode inst
    (some (prev, next)) (some block)

/-- Takes a statement out from between two others. -/
def drop (view : LayoutView) (inst : Inst) (block : Block) (prev next : Option Inst) :
    LayoutView :=
  ((view.linkNext prev block next).linkPrev next block prev).setNode inst none none

section

variable {view : LayoutView} {inst : Inst} {block : Block} {target : Option Inst}

/-- The link behind a statement. -/
theorem linkNext_some {links : Option Inst × Option Inst} (h : view.node inst = some links) :
    view.linkNext (some inst) block target = { view with
      node := fun other => if other = inst then some (links.1, target) else view.node other } := by
  ext1
  case node =>
    funext other
    by_cases heq : other = inst
    · subst heq
      simp only [linkNext, Links.setNext, h, if_true, Option.map_some]
    · have hne : some inst ≠ some other := fun hsome => heq (Option.some.inj hsome).symm
      simp only [linkNext, Links.setNext, hne, heq, if_false]
  all_goals simp only [linkNext, reduceCtorEq, false_and, if_false]

/-- The link in front of a statement. -/
theorem linkPrev_some {links : Option Inst × Option Inst} (h : view.node inst = some links) :
    view.linkPrev (some inst) block target = { view with
      node := fun other => if other = inst then some (target, links.2) else view.node other } := by
  ext1
  case node =>
    funext other
    by_cases heq : other = inst
    · subst heq
      simp only [linkPrev, Links.setPrev, h, if_true, Option.map_some]
    · have hne : some inst ≠ some other := fun hsome => heq (Option.some.inj hsome).symm
      simp only [linkPrev, Links.setPrev, hne, heq, if_false]
  all_goals simp only [linkPrev, reduceCtorEq, false_and, if_false]

/-- Without a statement in front, the first statement of the block is linked. -/
theorem linkNext_none {ends : Option Inst × Option Inst} (h : view.ends block = some ends) :
    view.linkNext none block target = { view with
      ends := fun other => if other = block then some (target, ends.2) else view.ends other } := by
  ext1
  case ends =>
    funext other
    by_cases heq : other = block
    · subst heq
      simp only [linkNext, h, if_true, Option.map_some, and_self]
    · simp only [linkNext, heq, if_false, and_false]
  case node => exact view.node.setNext_none target
  all_goals rfl

/-- Without a statement behind, the last statement of the block is linked. -/
theorem linkPrev_none {ends : Option Inst × Option Inst} (h : view.ends block = some ends) :
    view.linkPrev none block target = { view with
      ends := fun other => if other = block then some (ends.1, target) else view.ends other } := by
  ext1
  case ends =>
    funext other
    by_cases heq : other = block
    · subst heq
      simp only [linkPrev, h, if_true, Option.map_some, and_self]
    · simp only [linkPrev, heq, if_false, and_false]
  case node => exact view.node.setPrev_none target
  all_goals rfl

/-- Linking neither adds nor takes away. -/
theorem linkNext_eq_none {prev : Option Inst} :
    (∀ inst, (view.linkNext prev block target).node inst = none ↔ view.node inst = none) ∧
      ∀ other, (view.linkNext prev block target).ends other = none ↔ view.ends other = none := by
  simp only [linkNext, Links.setNext]
  constructor <;> intro <;> split <;> simp only [Option.map_eq_none_iff]

/-- Links appear nowhere and vanish nowhere. -/
theorem linkPrev_eq_none {next : Option Inst} :
    (∀ inst, (view.linkPrev next block target).node inst = none ↔ view.node inst = none) ∧
      ∀ other, (view.linkPrev next block target).ends other = none ↔ view.ends other = none := by
  simp only [linkPrev, Links.setPrev]
  constructor <;> intro <;> split <;> simp only [Option.map_eq_none_iff]

/-- Links to both sides can be made in any order. -/
theorem link_comm {prev next target' : Option Inst} :
    (view.linkPrev next block target').linkNext prev block target =
      (view.linkNext prev block target).linkPrev next block target' := by
  ext1
  case node =>
    funext other
    simp only [linkNext, linkPrev, Links.setNext, Links.setPrev]
    split <;> split <;> simp only [Option.map_map]
    rfl
  case ends =>
    funext other
    simp only [linkNext, linkPrev]
    split <;> split <;> simp only [Option.map_map]
    rfl
  all_goals rfl

end

/-! ## Changes within a block -/

section

variable {view view' : LayoutView} {front behind : Outline} {block : Block} {old new : List Inst}

/-- A block is held as long as its ends and its statements are as they were. -/
theorem Holds.congr {insts : List Inst} (h : view.Holds block insts)
    (hends : view'.ends block = view.ends block)
    (hsame : ∀ inst ∈ insts, view'.node inst = view.node inst ∧
      view'.owner inst = view.owner inst) : view'.Holds block insts where
  ends := hends.trans h.ends
  chain := h.chain.congr fun inst hinst => (hsame inst hinst).1
  owner inst hinst := (hsame inst hinst).2.trans (h.owner inst hinst)

/-- **A CHANGE WITHIN A BLOCK** changes the outline there. -/
theorem Denotes.rewrite (h : view.Denotes (front ++ (block, old) :: behind))
    (hhead : view'.head = view.head) (htail : view'.tail = view.tail)
    (hblock : view'.block = view.block)
    (hends : ∀ other, other ≠ block → view'.ends other = view.ends other)
    (hsame : ∀ inst, inst ∉ old → inst ∉ new → view'.node inst = view.node inst ∧
      view'.owner inst = view.owner inst)
    (hgone : ∀ inst ∈ old, inst ∉ new → view'.node inst = none ∧ view'.owner inst = none)
    (hholds : view'.Holds block new) (hnodup : (stmts (front ++ (block, new) :: behind)).Nodup) :
    view'.Denotes (front ++ (block, new) :: behind) := by
  have hblocks : blocks (front ++ (block, new) :: behind) =
      blocks (front ++ (block, old) :: behind) := blocks_congr new
  -- a statement that has links is in the block now, or in another block as before
  have hplaced : ∀ inst, view'.node inst ≠ none ∨ view'.owner inst ≠ none →
      inst ∈ stmts (front ++ (block, new) :: behind) := by
    intro inst hlinked
    rw [stmts_perm.mem_iff, List.mem_append]
    by_cases hnew : inst ∈ new
    · exact Or.inl hnew
    · have hold : inst ∉ old := by
        intro hmem
        obtain ⟨hnode, howner⟩ := hgone inst hmem hnew
        exact hlinked.elim (fun h => h hnode) fun h => h howner
      rw [(hsame inst hold hnew).1, (hsame inst hold hnew).2] at hlinked
      have hbefore := hlinked.elim (h.nodes inst) (h.owners inst)
      rw [stmts_perm.mem_iff, List.mem_append] at hbefore
      exact Or.inr (hbefore.resolve_left hold)
  refine ⟨?_, ?_, ?_, fun entry hentry => ?_, fun other hother => ?_,
    fun inst hinst => hplaced inst (Or.inl hinst), fun inst hinst => hplaced inst (Or.inr hinst),
    ?_, hnodup⟩
  · rw [hhead, hblocks, h.head]
  · rw [htail, hblocks, h.tail]
  · rw [hblock, hblocks]
    exact h.chain
  -- the block is the one that was changed, or one whose statements stayed
  · rcases List.mem_cons.mp (List.perm_middle.mem_iff.mp hentry) with rfl | hentry
    · exact hholds
    · have hmem : entry ∈ front ++ (block, old) :: behind :=
        List.perm_middle.mem_iff.mpr (List.mem_cons_of_mem _ hentry)
      refine (h.holds entry hmem).congr (hends _ (block_ne h.blocksNodup hentry)) ?_
      exact fun inst hinst => hsame inst (not_mem_insts h.stmtsNodup hentry hinst)
        (not_mem_insts hnodup hentry hinst)
  · rw [hblocks]
    by_cases heq : other = block
    · rw [heq, blocks_perm.mem_iff]
      exact List.mem_cons_self
    · rw [hends other heq] at hother
      exact h.ends other hother
  · rw [hblocks]
    exact h.blocksNodup

end

/-! ## Statements put in and taken out -/

section

variable {view : LayoutView} {block : Block} {prev next target target' : Option Inst}

/-- Two links concern the first and the last statement of a block if there is no other
    statement at that side. -/
theorem ends_link {first last : Option Inst} (h : view.ends block = some (first, last)) :
    ((view.linkNext prev block target).linkPrev next block target').ends block =
      some (if prev = none then target else first, if next = none then target' else last) := by
  simp only [linkPrev, linkNext, h, and_true]
  split <;> split <;> rfl

/-- Other blocks keep their ends. -/
theorem ends_link_other {other : Block} (h : other ≠ block) :
    ((view.linkNext prev block target).linkPrev next block target').ends other =
      view.ends other := by
  simp only [linkPrev, linkNext, h, and_false, if_false]

variable {front behind : Outline} {before after : List Inst} {inst : Inst}

/-- Other statements keep their links. -/
theorem node_link_other (h : inst ∉ before ++ after) :
    ((view.linkNext before.getLast? block target).linkPrev after.head? block target').node inst =
      view.node inst := by
  have hbefore := getLast?_ne_some fun hmem => h (List.mem_append_left after hmem)
  have hafter := head?_ne_some fun hmem => h (List.mem_append_right before hmem)
  exact (Links.setPrev_other hafter).trans (Links.setNext_other hbefore)

/-- The first statement when one is put in. -/
theorem head?_put : (if before.getLast? = none then some inst else (before ++ after).head?) =
    (before ++ inst :: after).head? := by
  cases before with
  | nil => rfl
  | cons a before => rw [List.getLast?_cons]; rfl

/-- The last statement when one is put in. -/
theorem getLast?_put : (if after.head? = none then some inst else (before ++ after).getLast?) =
    (before ++ inst :: after).getLast? := by
  cases after with
  | nil => rw [List.getLast?_concat]; rfl
  | cons a after =>
      rw [List.getLast?_append, List.getLast?_append, List.getLast?_cons_cons, List.getLast?_cons]
      rfl

/-- The first statement when one is taken out. -/
theorem head?_drop : (if before.getLast? = none then after.head? else
    (before ++ inst :: after).head?) = (before ++ after).head? := by
  cases before with
  | nil => rfl
  | cons a before => rw [List.getLast?_cons]; rfl

/-- The last statement when one is taken out. -/
theorem getLast?_drop : (if after.head? = none then before.getLast? else
    (before ++ inst :: after).getLast?) = (before ++ after).getLast? := by
  cases after with
  | nil => rw [List.append_nil]; rfl
  | cons a after =>
      rw [List.getLast?_append, List.getLast?_append, List.getLast?_cons_cons, List.getLast?_cons]
      rfl

/-- **A STATEMENT IS PUT IN** where a block is cut. -/
theorem Denotes.put (h : view.Denotes (front ++ (block, before ++ after) :: behind))
    (hnew : inst ∉ stmts (front ++ (block, before ++ after) :: behind)) :
    (view.put inst block before.getLast? after.head?).Denotes
      (front ++ (block, before ++ inst :: after) :: behind) := by
  have hholds := h.holds _ (List.mem_append_right _ List.mem_cons_self)
  have hnodup : (before ++ after).Nodup :=
    (List.nodup_append.mp (stmts_perm.nodup_iff.mp h.stmtsNodup)).1
  have hother : ∀ other ∈ before ++ after, other ≠ inst := by
    rintro other hmem rfl
    exact hnew (mem_stmts_of_mem hmem)
  -- both halves of the chain are linked to the new statement, which has them as neighbours
  obtain ⟨hfront, hback⟩ := chained_append.mp hholds.chain
  obtain ⟨hfront, hback⟩ := hfront.relink hback hnodup (some inst) (some inst)
  have hchain : Chained (view.put inst block before.getLast? after.head?).node none
      (before ++ inst :: after) none := by
    refine chained_append.mpr
      ⟨hfront.congr fun other hmem => ?_, ?_, hback.congr fun other hmem => ?_⟩
    · exact if_neg (hother other (List.mem_append_left _ hmem))
    · rw [Option.or_none, Option.or_none]
      exact if_pos rfl
    · exact if_neg (hother other (List.mem_append_right _ hmem))
  have hmem_put : ∀ other, other ∈ before ++ inst :: after ↔
      other = inst ∨ other ∈ before ++ after :=
    fun other => List.perm_middle.mem_iff.trans List.mem_cons
  refine h.rewrite rfl rfl rfl (fun other hother => ends_link_other hother)
    (fun other hold hout => ?_) (fun other hmem hout => ?_) ⟨?_, hchain, fun other hmem => ?_⟩ ?_
  · have hne : other ≠ inst := fun heq => hout ((hmem_put other).mpr (Or.inl heq))
    exact ⟨(if_neg hne).trans (node_link_other hold), if_neg hne⟩
  · exact absurd ((hmem_put other).mpr (Or.inr hmem)) hout
  · exact (ends_link hholds.ends).trans (by rw [head?_put, getLast?_put])
  · rcases (hmem_put other).mp hmem with rfl | hmem
    · exact if_pos rfl
    · exact (if_neg (hother other hmem)).trans (hholds.owner other hmem)
  · rw [stmts_middle.nodup_iff, List.nodup_cons]
    exact ⟨hnew, h.stmtsNodup⟩

/-- **A STATEMENT IS TAKEN OUT**. -/
theorem Denotes.drop (h : view.Denotes (front ++ (block, before ++ inst :: after) :: behind)) :
    (view.drop inst block before.getLast? after.head?).Denotes
      (front ++ (block, before ++ after) :: behind) := by
  have hholds := h.holds _ (List.mem_append_right _ List.mem_cons_self)
  obtain ⟨hout, hnodup⟩ := List.nodup_cons.mp (stmts_middle.nodup_iff.mp h.stmtsNodup)
  have hnodup' : (before ++ after).Nodup :=
    (List.nodup_append.mp (stmts_perm.nodup_iff.mp hnodup)).1
  have hother : ∀ other ∈ before ++ after, other ≠ inst := by
    rintro other hmem rfl
    exact hout (mem_stmts_of_mem hmem)
  -- the two halves of the chain are linked to each other
  obtain ⟨hfront, -, hback⟩ := chained_append.mp hholds.chain
  obtain ⟨hfront, hback⟩ := hfront.relink hback hnodup' after.head? before.getLast?
  have hchain : Chained (view.drop inst block before.getLast? after.head?).node none
      (before ++ after) none := by
    rw [chained_append, Option.or_none, Option.or_none]
    refine ⟨hfront.congr fun other hmem => ?_, hback.congr fun other hmem => ?_⟩
    · exact if_neg (hother other (List.mem_append_left _ hmem))
    · exact if_neg (hother other (List.mem_append_right _ hmem))
  have hmem_old : ∀ other, other ∈ before ++ inst :: after ↔
      other = inst ∨ other ∈ before ++ after :=
    fun other => List.perm_middle.mem_iff.trans List.mem_cons
  refine h.rewrite rfl rfl rfl (fun other hother => ends_link_other hother)
    (fun other hold hnew => ?_) (fun other hmem hnew => ?_) ⟨?_, hchain, fun other hmem => ?_⟩ ?_
  · have hne : other ≠ inst := fun heq => hold ((hmem_old other).mpr (Or.inl heq))
    exact ⟨(if_neg hne).trans (node_link_other hnew), if_neg hne⟩
  · obtain rfl := ((hmem_old other).mp hmem).resolve_right hnew
    exact ⟨if_pos rfl, if_pos rfl⟩
  · exact (ends_link hholds.ends).trans (by rw [head?_drop, getLast?_drop])
  · exact (if_neg (hother other hmem)).trans
      (hholds.owner other ((hmem_old other).mpr (Or.inr hmem)))
  · exact hnodup

end

/-! ## Blocks at the end -/

/-- Puts a block behind the last one. -/
def addBlock (view : LayoutView) (block : Block) : LayoutView :=
  { view with
    block := fun other => if other = block then some (view.tail, none)
      else view.block.setNext view.tail (some block) other
    ends := fun other => if other = block then some (none, none) else view.ends other
    head := view.head.or (some block)
    tail := some block }

/-- **A BLOCK IS PUT AT THE END**. -/
theorem Denotes.addBlock {view : LayoutView} {outline : Outline} {block : Block}
    (h : view.Denotes outline) (hnew : block ∉ outline.blocks) :
    (view.addBlock block).Denotes (outline ++ [(block, [])]) := by
  have hblocks : blocks (outline ++ [(block, [])]) = outline.blocks ++ [block] :=
    blocks_append _ _
  have hstmts : stmts (outline ++ [(block, [])]) = outline.stmts :=
    (stmts_append _ _).trans (List.append_nil _)
  -- the block is new, so what is known of the others stays
  have hother : ∀ other ∈ outline.blocks, other ≠ block := by
    rintro other hmem rfl
    exact hnew hmem
  have hchain := h.chain.setNext h.blocksNodup (some block)
  rw [← h.tail] at hchain
  refine ⟨?_, ?_, ?_, fun entry hentry => ?_, fun other hends => ?_, ?_, ?_, ?_, ?_⟩
  · rw [hblocks, List.head?_append, ← h.head]
    rfl
  · rw [hblocks, List.getLast?_concat]
    rfl
  · rw [hblocks]
    refine chained_append.mpr ⟨hchain.congr fun other hmem => ?_, ?_, trivial⟩
    · exact if_neg (hother other hmem)
    · rw [Option.or_none, ← h.tail]
      exact if_pos rfl
  · rcases List.mem_append.mp hentry with hentry | hentry
    · have hne := hother entry.1 (mem_blocks hentry)
      exact (h.holds entry hentry).congr (if_neg hne) fun _ _ => ⟨rfl, rfl⟩
    · obtain rfl := List.mem_singleton.mp hentry
      exact ⟨if_pos rfl, trivial, List.forall_mem_nil _⟩
  · rw [hblocks, List.mem_append, List.mem_singleton]
    by_cases heq : other = block
    · exact Or.inr heq
    · have hold : (view.addBlock block).ends other = view.ends other := if_neg heq
      rw [hold] at hends
      exact Or.inl (h.ends other hends)
  · rw [hstmts]
    exact h.nodes
  · rw [hstmts]
    exact h.owners
  · rw [hblocks, List.nodup_append]
    refine ⟨h.blocksNodup, List.nodup_cons.mpr ⟨List.not_mem_nil, List.nodup_nil⟩, ?_⟩
    rintro other hmem last hlast rfl
    exact hother other hmem (List.mem_singleton.mp hlast)
  · rw [hstmts]
    exact h.stmtsNodup

end LayoutView

end DecafBackend
