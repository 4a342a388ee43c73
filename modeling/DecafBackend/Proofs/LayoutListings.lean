import DecafBackend.Proofs.LinkedLayouts

/-! # Listings of layouts

    A layout that represents an outline lists it: the look-ups give the neighbours in the
    outline, the iterator over blocks and the iterators over statements give its lists.
    An iterator over statements can be drawn from at both ends.  It stands for what is
    left between them, so that every order of drawing gives every statement once.

    * `Cursor.span`, `Segment` — iterators, and the parts of blocks that they stand for
    * `next_span`, `nextBack_span` — one step at either end
    * `Side`, `draw`, `drawn` — any order of steps at both ends
    * `Lists`, `Agrees` — all that a layout says about an outline -/

namespace DecafBackend

open Outline

namespace LinkedLayout

/-! ## Look-ups -/

section

variable {layout : LinkedLayout} {inst : Inst} {block : Block}

/-- The neighbours of a statement are its links. -/
theorem neighbours {links : Option Inst × Option Inst} (h : layout.view.node inst = some links) :
    layout.instPrev inst = .ok links.1 ∧ layout.instNext inst = .ok links.2 := by
  obtain ⟨stored, hstored, rfl⟩ := Option.map_eq_some_iff.mp h
  exact ⟨Checked.bind_ok (SlotMap.get_eq hstored), Checked.bind_ok (SlotMap.get_eq hstored)⟩

/-- The next block is the one that is linked. -/
theorem blockNext_eq {links : Option Block × Option Block}
    (h : layout.view.block block = some links) : layout.blockNext block = .ok links.2 := by
  obtain ⟨stored, hstored, rfl⟩ := Option.map_eq_some_iff.mp h
  exact Checked.bind_ok (SlotMap.get_eq hstored)

/-- The ends of a block, and the iterator that starts from them. -/
theorem ends_eq {ends : Option Inst × Option Inst} (h : layout.view.ends block = some ends) :
    layout.blockFirst block = .ok ends.1 ∧ layout.blockLast block = .ok ends.2 ∧
      layout.cursor block = .ok ⟨ends.1, ends.2⟩ := by
  obtain ⟨stored, hstored, rfl⟩ := Option.map_eq_some_iff.mp h
  exact ⟨Checked.bind_ok (SlotMap.get_eq hstored), Checked.bind_ok (SlotMap.get_eq hstored),
    Checked.bind_ok (SlotMap.get_eq hstored)⟩

end

/-! ## Iterators -/

/-- An iterator that stands for a list of statements. -/
def Cursor.span (insts : List Inst) : Cursor := ⟨insts.head?, insts.getLast?⟩

/-- Statements that are linked one after another.  The links at their ends may lead on,
    but an iterator does not follow them. -/
structure Segment (layout : LinkedLayout) (insts : List Inst) : Prop where
  nodup : insts.Nodup
  chain : ∃ prev next, Chained layout.view.node prev insts next

section

variable {layout : LinkedLayout} {insts : List Inst}

/-- A segment without its first statement is one. -/
theorem Segment.tail (h : layout.Segment insts) : layout.Segment insts.tail := by
  obtain ⟨hnodup, prev, next, hchain⟩ := h
  cases insts with
  | nil => exact ⟨hnodup, prev, next, hchain⟩
  | cons inst insts => exact ⟨hnodup.tail, some inst, next, hchain.2⟩

/-- A segment without its last statement is one. -/
theorem Segment.dropLast (h : layout.Segment insts) : layout.Segment insts.dropLast := by
  obtain ⟨hnodup, prev, next, hchain⟩ := h
  rcases List.eq_nil_or_concat insts with rfl | ⟨insts, inst, rfl⟩
  · exact ⟨hnodup, prev, next, hchain⟩
  · rw [List.concat_eq_append] at hnodup hchain ⊢
    rw [List.dropLast_concat]
    exact ⟨(List.nodup_append.mp hnodup).1, prev, _, (chained_append.mp hchain).1⟩

/-- The first statement is the last one only if it is the only one, so that an iterator
    may compare its ends to see whether it is at the end. -/
theorem head_ne_getLast {inst other : Inst} (h : (inst :: other :: insts).Nodup) :
    some inst ≠ (inst :: other :: insts).getLast? := by
  intro heq
  rw [List.getLast?_cons_cons] at heq
  exact (List.nodup_cons.mp h).1 (List.mem_of_getLast? heq.symm)

/-- **A STEP FROM THE FRONT** gives the first statement and goes on to the rest. -/
theorem Segment.next_span (h : layout.Segment insts) :
    layout.next (Cursor.span insts) = .ok (insts.head?, Cursor.span insts.tail) := by
  obtain ⟨hnodup, prev, next, hchain⟩ := h
  cases insts with
  | nil => rfl
  | cons inst rest =>
      cases rest with
      | nil => exact if_pos rfl
      | cons other rest =>
          refine (if_neg (head_ne_getLast hnodup)).trans ?_
          refine (Checked.bind_ok (neighbours hchain.1).2).trans ?_
          rw [Cursor.span, List.getLast?_cons_cons]
          rfl

/-- **A STEP FROM THE BACK** gives the last statement and goes on to what is before it. -/
theorem Segment.nextBack_span (h : layout.Segment insts) :
    layout.nextBack (Cursor.span insts) = .ok (insts.getLast?, Cursor.span insts.dropLast) := by
  obtain ⟨hnodup, prev, next, hchain⟩ := h
  rcases List.eq_nil_or_concat insts with rfl | ⟨front, inst, rfl⟩
  · rfl
  · rw [List.concat_eq_append] at hnodup hchain ⊢
    have hlinks := (neighbours hchain.at).1
    rw [List.dropLast_concat, nextBack, Cursor.span, List.getLast?_concat]
    cases front with
    | nil => exact if_pos rfl
    | cons first front =>
        have hne : some first ≠ some inst := by
          rintro ⟨⟩
          exact (List.nodup_cons.mp hnodup).1 (List.mem_append_right _ List.mem_cons_self)
        refine (if_neg hne).trans ((Checked.bind_ok hlinks).trans ?_)
        rw [Cursor.span, List.getLast?_cons]
        rfl

/-- From the front a segment is walked over in order. -/
theorem Segment.takeAll_next (h : layout.Segment insts) {fuel : Nat}
    (hfuel : insts.length < fuel) :
    takeAll layout.next fuel (Cursor.span insts) = .ok insts := by
  induction insts generalizing fuel with
  | nil =>
      obtain ⟨fuel, rfl⟩ := Nat.exists_eq_add_one_of_ne_zero (Nat.ne_of_gt hfuel)
      exact Checked.bind_ok h.next_span
  | cons inst insts ih =>
      obtain ⟨fuel, rfl⟩ := Nat.exists_eq_add_one_of_ne_zero (Nat.ne_zero_of_lt hfuel)
      refine (Checked.bind_ok h.next_span).trans ?_
      exact Checked.bind_ok (ih h.tail (Nat.lt_of_succ_lt_succ hfuel))

/-- From the back a segment is walked over in the opposite order. -/
theorem Segment.takeAll_nextBack (h : layout.Segment insts) {fuel : Nat}
    (hfuel : insts.length < fuel) :
    takeAll layout.nextBack fuel (Cursor.span insts) = .ok insts.reverse := by
  -- the list loses its end, which is no step of an induction on the list
  induction fuel generalizing insts with
  | zero => exact absurd hfuel (Nat.not_lt_zero _)
  | succ fuel ih =>
      refine (Checked.bind_ok h.nextBack_span).trans ?_
      have hrest := h.dropLast
      rcases List.eq_nil_or_concat insts with rfl | ⟨insts, inst, rfl⟩
      · rfl
      · rw [List.concat_eq_append] at hfuel hrest ⊢
        rw [List.dropLast_concat] at hrest ⊢
        rw [List.getLast?_concat, List.reverse_concat]
        rw [List.length_append] at hfuel
        exact Checked.bind_ok (ih hrest (Nat.lt_of_succ_lt_succ hfuel))

end

/-! ## Drawing from both ends -/

/-- An end of an iterator. -/
inductive Side
  | front
  | back

/-- One step at one end. -/
def drawOne (layout : LinkedLayout) (cursor : Cursor) : Side → Checked (Option Inst × Cursor)
  | .front => layout.next cursor
  | .back => layout.nextBack cursor

/-- Steps at both ends, in any order. -/
def draw (layout : LinkedLayout) : List Side → Cursor → Checked (List (Option Inst))
  | [], _ => return []
  | side :: sides, cursor => do
    let step ← layout.drawOne cursor side
    return step.1 :: (← layout.draw sides step.2)

/-- What is drawn from a list at both ends. -/
def drawn : List Side → List Inst → List (Option Inst)
  | [], _ => []
  | .front :: sides, insts => insts.head? :: drawn sides insts.tail
  | .back :: sides, insts => insts.getLast? :: drawn sides insts.dropLast

/-- Steps from both ends take from both ends of the list. -/
theorem Segment.draw_span {layout : LinkedLayout} {insts : List Inst} (h : layout.Segment insts)
    (sides : List Side) : layout.draw sides (Cursor.span insts) = .ok (drawn sides insts) := by
  induction sides generalizing insts with
  | nil => rfl
  | cons side sides ih =>
      cases side with
      | front => exact (Checked.bind_ok h.next_span).trans (Checked.bind_ok (ih h.tail))
      | back => exact (Checked.bind_ok h.nextBack_span).trans (Checked.bind_ok (ih h.dropLast))

/-- Nothing is drawn from an empty list. -/
theorem drawn_nil (sides : List Side) : drawn sides [] = List.replicate sides.length none := by
  induction sides with
  | nil => rfl
  | cons side sides ih => cases side <;> exact congrArg (none :: ·) ih

/-- One statement less is left after each step. -/
theorem drawn_cons (side : Side) (sides : List Side) {insts : List Inst} (h : insts ≠ []) :
    ∃ inst rest, (inst :: rest).Perm insts ∧
      drawn (side :: sides) insts = some inst :: drawn sides rest := by
  cases side with
  | front =>
      obtain ⟨inst, rest, rfl⟩ := List.exists_cons_of_ne_nil h
      exact ⟨inst, rest, .refl _, rfl⟩
  | back =>
      rcases List.eq_nil_or_concat insts with rfl | ⟨rest, inst, rfl⟩
      · exact absurd rfl h
      · rw [List.concat_eq_append, drawn, List.getLast?_concat, List.dropLast_concat]
        exact ⟨inst, rest, (List.perm_append_singleton inst rest).symm, rfl⟩

/-- **EVERY STATEMENT ONCE**: in whatever order an iterator is drawn from at its ends, it
    gives statements as long as any are left, each of them once, and nothing from then on. -/
theorem drawn_once (sides : List Side) (insts : List Inst) :
    ∃ given left : List Inst, (given ++ left).Perm insts ∧
      given.length = min sides.length insts.length ∧
      drawn sides insts = given.map some ++ List.replicate (sides.length - insts.length) none := by
  induction sides generalizing insts with
  | nil =>
      refine ⟨[], insts, .refl _, (Nat.zero_min _).symm, ?_⟩
      rw [List.length_nil, Nat.zero_sub]
      rfl
  | cons side sides ih =>
      by_cases hnil : insts = []
      · subst hnil
        exact ⟨[], [], .refl _, (Nat.min_zero _).symm, drawn_nil _⟩
      · obtain ⟨inst, rest, hperm, hdrawn⟩ := drawn_cons side sides hnil
        obtain ⟨given, left, hall, hlength, hrest⟩ := ih rest
        refine ⟨inst :: given, left, (hall.cons inst).trans hperm, ?_, ?_⟩
        · rw [← hperm.length_eq, List.length_cons, List.length_cons, List.length_cons, hlength,
            Nat.succ_min_succ]
        · rw [hdrawn, hrest, ← hperm.length_eq, List.length_cons, List.length_cons,
            Nat.succ_sub_succ]
          rfl

/-! ## Outlines -/

/-- All that a layout says about one block of an outline. -/
structure Lists (layout : LinkedLayout) (block : Block) (insts : List Inst) : Prop where
  first : layout.blockFirst block = .ok insts.head?
  last : layout.blockLast block = .ok insts.getLast?
  forward : layout.instList block = .ok insts
  backward : layout.instListBack block = .ok insts.reverse
  next : ∀ before inst after, insts = before ++ inst :: after →
    layout.instNext inst = .ok after.head?
  prev : ∀ before inst after, insts = before ++ inst :: after →
    layout.instPrev inst = .ok before.getLast?
  interleaved : ∀ sides, (layout.cursor block >>= layout.draw sides) = .ok (drawn sides insts)
  once : ∀ sides, ∃ given left : List Inst, (given ++ left).Perm insts ∧
    given.length = min sides.length insts.length ∧
    (layout.cursor block >>= layout.draw sides) =
      .ok (given.map some ++ List.replicate (sides.length - insts.length) none)

/-- All that a layout says about an outline. -/
structure Agrees (layout : LinkedLayout) (outline : Outline) : Prop where
  blocksNodup : outline.blocks.Nodup
  stmtsNodup : outline.stmts.Nodup
  blockCount : layout.blockCount = outline.length
  instCount : layout.instCount = outline.stmts.length
  entry : layout.entry? = outline.blocks.head?
  blockList : layout.blockList = .ok outline.blocks
  blockNext : ∀ front block behind, outline.blocks = front ++ block :: behind →
    layout.blockNext block = .ok behind.head?
  lists : ∀ entry ∈ outline, layout.Lists entry.1 entry.2
  listing : layout.outline = .ok outline
  isPlaced : ∀ inst, layout.isPlaced inst = true ↔ inst ∈ outline.stmts
  blockOf : ∀ inst block, layout.blockOf inst = .ok block ↔
    ∃ entry ∈ outline, entry.1 = block ∧ inst ∈ entry.2

section

variable {layout : LinkedLayout} {outline : Outline}

/-- A layout without blocks. -/
theorem represents_nil : ({} : LinkedLayout).Represents [] where
  view := {
    head := @OptionalKey.toOption_none .block
    tail := @OptionalKey.toOption_none .block
    chain := trivial
    holds := List.forall_mem_nil _
    ends := fun _ hends => absurd rfl hends
    nodes := fun _ hnode => absurd rfl hnode
    owners := fun _ howner => absurd rfl howner
    blocksNodup := List.nodup_nil
    stmtsNodup := List.nodup_nil }
  counts := rfl
  stmtsFit := List.forall_mem_nil _
  blocksFit := List.forall_mem_nil _

/-- The chain of blocks is walked over in order. -/
theorem blocksFrom_eq {prev : Option Block} {list : List Block}
    (h : Chained layout.view.block prev list none) {fuel : Nat} (hfuel : list.length ≤ fuel) :
    layout.blocksFrom fuel list.head? = .ok list := by
  induction list generalizing prev fuel with
  | nil => cases fuel <;> rfl
  | cons block list ih =>
      obtain ⟨fuel, rfl⟩ := Nat.exists_eq_add_one_of_ne_zero (Nat.ne_zero_of_lt hfuel)
      refine (Checked.bind_ok (blockNext_eq h.1)).trans ?_
      rw [Option.or_none]
      exact Checked.bind_ok (ih h.2 (Nat.le_of_succ_le_succ hfuel))

/-- The outline is read off block by block. -/
theorem outlineFrom_eq {prev : Option Block} {outline : Outline}
    (h : Chained layout.view.block prev outline.blocks none)
    (hlists : ∀ entry ∈ outline, layout.instList entry.1 = .ok entry.2) {fuel : Nat}
    (hfuel : outline.length ≤ fuel) :
    layout.outlineFrom fuel outline.blocks.head? = .ok outline := by
  induction outline generalizing prev fuel with
  | nil => cases fuel <;> rfl
  | cons entry outline ih =>
      obtain ⟨fuel, rfl⟩ := Nat.exists_eq_add_one_of_ne_zero (Nat.ne_zero_of_lt hfuel)
      refine (Checked.bind_ok (blockNext_eq h.1)).trans ?_
      refine (Checked.bind_ok (hlists entry List.mem_cons_self)).trans ?_
      rw [Option.or_none]
      have hrest := fun other hother => hlists other (List.mem_cons_of_mem entry hother)
      exact Checked.bind_ok (ih h.2 hrest (Nat.le_of_succ_le_succ hfuel))

/-- The statements of each block are a segment. -/
theorem Represents.segment (h : layout.Represents outline) {entry : Block × List Inst}
    (hentry : entry ∈ outline) : layout.Segment entry.2 := by
  obtain ⟨front, behind, rfl⟩ := List.append_of_mem hentry
  obtain ⟨hnodup, -⟩ := List.nodup_append.mp (stmts_perm.nodup_iff.mp h.view.stmtsNodup)
  exact ⟨hnodup, none, none, (h.view.holds entry hentry).chain⟩

/-- There are slots for all statements. -/
theorem Represents.length_le (h : layout.Represents outline) {entry : Block × List Inst}
    (hentry : entry ∈ outline) : entry.2.length ≤ layout.nodes.slots.size := by
  refine SlotMap.length_le_slots (h.segment hentry).nodup fun inst hinst => ?_
  have hnode := h.view.node_iff.mpr (mem_stmts.mpr ⟨entry, hentry, hinst⟩)
  exact Option.ne_none_iff_exists'.mp fun hnone => hnode (Option.map_eq_none_iff.mpr hnone)

/-- There are slots for all blocks. -/
theorem Represents.blocks_length_le (h : layout.Represents outline) :
    outline.blocks.length ≤ layout.blocks.slots.size := by
  refine SlotMap.length_le_slots h.view.blocksNodup fun block hblock => ?_
  have hends := h.view.ends_iff.mpr hblock
  exact Option.ne_none_iff_exists'.mp fun hnone => hends (Option.map_eq_none_iff.mpr hnone)

/-- A layout lists the statements of each block of the outline that it represents. -/
theorem Represents.lists (h : layout.Represents outline) {entry : Block × List Inst}
    (hentry : entry ∈ outline) : layout.Lists entry.1 entry.2 := by
  have hholds := h.view.holds entry hentry
  have hsegment := h.segment hentry
  have hfuel : entry.2.length < layout.nodes.slots.size + 2 := by
    have hle := h.length_le hentry
    omega
  obtain ⟨hfirst, hlast, hcursor⟩ := ends_eq hholds.ends
  -- the links of a statement are its neighbours in the list
  have hlinks : ∀ before inst after, entry.2 = before ++ inst :: after →
      layout.view.node inst = some (before.getLast?, after.head?) := by
    intro before inst after hsplit
    have hchain := hholds.chain
    rw [hsplit] at hchain
    rw [hchain.at, Option.or_none, Option.or_none]
  have hdraw : ∀ sides, (layout.cursor entry.1 >>= layout.draw sides) =
      .ok (drawn sides entry.2) :=
    fun sides => (Checked.bind_ok hcursor).trans (hsegment.draw_span sides)
  refine ⟨hfirst, hlast, ?_, ?_, fun before inst after hsplit => ?_,
    fun before inst after hsplit => ?_, hdraw, fun sides => ?_⟩
  · exact (Checked.bind_ok hcursor).trans (hsegment.takeAll_next hfuel)
  · exact (Checked.bind_ok hcursor).trans (hsegment.takeAll_nextBack hfuel)
  · exact (neighbours (hlinks before inst after hsplit)).2
  · exact (neighbours (hlinks before inst after hsplit)).1
  · obtain ⟨given, left, hperm, hlength, hdrawn⟩ := drawn_once sides entry.2
    exact ⟨given, left, hperm, hlength, hdrawn ▸ hdraw sides⟩

/-- The block of a statement is the one whose list it is in. -/
theorem Represents.blockOf_iff (h : layout.Represents outline) {inst : Inst} {block : Block} :
    layout.blockOf inst = .ok block ↔ ∃ entry ∈ outline, entry.1 = block ∧ inst ∈ entry.2 := by
  have hplaced : ∀ entry ∈ outline, inst ∈ entry.2 → layout.blockOf inst = .ok entry.1 :=
    fun entry hentry hinst => SlotMap.get_eq ((h.view.holds entry hentry).owner inst hinst)
  constructor
  · intro hblock
    have howner : layout.view.owner inst ≠ none := by
      intro hnone
      have hget : layout.owners.get? inst = none := hnone
      rw [LinkedLayout.blockOf, SlotMap.get, hget] at hblock
      cases hblock
    obtain ⟨entry, hentry, hinst⟩ := mem_stmts.mp (h.view.owner_iff.mp howner)
    exact ⟨entry, hentry, Except.ok.inj ((hplaced entry hentry hinst).symm.trans hblock), hinst⟩
  · rintro ⟨entry, hentry, rfl, hinst⟩
    exact hplaced entry hentry hinst

/-- **LISTING**: a layout says about an outline that it represents what there is to say. -/
theorem Represents.agrees (h : layout.Represents outline) : layout.Agrees outline := by
  obtain ⟨hnodes, -, hcount⟩ := counts_eq h.counts
  have hblocks := h.blocks_length_le
  have hhead : layout.entry? = outline.blocks.head? := h.view.head
  refine ⟨h.view.blocksNodup, h.view.stmtsNodup, hcount, hnodes, hhead, ?_,
    fun front block behind hsplit => ?_, fun entry => h.lists, ?_, fun inst => ?_,
    fun inst block => h.blockOf_iff⟩
  · rw [LinkedLayout.blockList, hhead]
    exact blocksFrom_eq h.view.chain (Nat.le_succ_of_le hblocks)
  · have hchain := h.view.chain
    rw [hsplit] at hchain
    rw [blockNext_eq hchain.at, Option.or_none, Option.or_none]
  · rw [LinkedLayout.outline, hhead]
    rw [Outline.blocks, List.length_map] at hblocks
    exact outlineFrom_eq h.view.chain (fun entry hentry => (h.lists hentry).forward)
      (Nat.le_succ_of_le hblocks)
  · rw [← h.view.node_iff, ne_eq, LinkedLayout.view, Option.map_eq_none_iff,
      LinkedLayout.isPlaced, SlotMap.contains, Option.isSome_iff_ne_none]

end

end LinkedLayout

end DecafBackend
