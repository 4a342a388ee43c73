import DecafBackend.Proofs.LayoutListings

/-! # Edits of layouts

    Whatever edits are made one after another, each as it is allowed, a layout is its
    outline.  An edit of an outline changes one list at the place that it names.

    * `LayoutEdit`, `LayoutEdit.run`, `LayoutEdit.revise` — an edit, of a layout and of an outline
    * `LayoutEdit.run_ok` — one edit of a layout that represents an outline
    * `LayoutEdit.runAll_agrees` — any number of edits, from the empty layout on -/

namespace DecafBackend

open Outline

namespace Outline

/-- Puts other statements in the place of one. -/
def substitute (outline : Outline) (inst : Inst) (images : List Inst) : Outline :=
  outline.map fun entry =>
    (entry.1, entry.2.flatMap fun other => if other = inst then images else [other])

/-- Puts a statement at the end of a block. -/
def push (outline : Outline) (inst : Inst) (block : Block) : Outline :=
  outline.map fun entry => (entry.1, if entry.1 = block then entry.2 ++ [inst] else entry.2)

section

variable {front behind : Outline} {block : Block} {before after : List Inst} {inst : Inst}

/-- Statements that are not named stay as they are. -/
theorem flatMap_other {insts images : List Inst} (h : inst ∉ insts) :
    insts.flatMap (fun other => if other = inst then images else [other]) = insts := by
  induction insts with
  | nil => rfl
  | cons other insts ih =>
      have hne : other ≠ inst := fun heq => h (heq ▸ List.mem_cons_self)
      rw [List.flatMap_cons, if_neg hne, ih fun hmem => h (List.mem_cons_of_mem _ hmem)]
      rfl

/-- Lists that do not change leave the outline as it is. -/
theorem map_other {outline : Outline} {f : Block × List Inst → List Inst}
    (h : ∀ entry ∈ outline, f entry = entry.2) :
    outline.map (fun entry => (entry.1, f entry)) = outline := by
  rw [List.map_congr_left fun entry hentry => congrArg (entry.1, ·) (h entry hentry), List.map_id']

/-- Statements are put in the place where the statement stands. -/
theorem substitute_split {images : List Inst}
    (h : (stmts (front ++ (block, before ++ inst :: after) :: behind)).Nodup) :
    substitute (front ++ (block, before ++ inst :: after) :: behind) inst images =
      front ++ (block, before ++ (images ++ after)) :: behind := by
  have hnodup := (List.nodup_append.mp (stmts_perm.nodup_iff.mp h)).1
  have hout := (List.nodup_cons.mp (List.perm_middle.nodup_iff.mp hnodup)).1
  have hother : ∀ entry ∈ front ++ behind, inst ∉ entry.2 := fun entry hentry hinst =>
    not_mem_insts h hentry hinst (List.mem_append_right _ List.mem_cons_self)
  rw [substitute, List.map_append, List.map_cons, map_other, map_other, List.flatMap_append,
    List.flatMap_cons, if_pos rfl, flatMap_other, flatMap_other]
  · exact fun hmem => hout (List.mem_append_right _ hmem)
  · exact fun hmem => hout (List.mem_append_left _ hmem)
  · exact fun entry hentry => flatMap_other (hother entry (List.mem_append_right _ hentry))
  · exact fun entry hentry => flatMap_other (hother entry (List.mem_append_left _ hentry))

/-- A statement is put at the end of the block, wherever that stands. -/
theorem push_split {insts : List Inst}
    (h : (blocks (front ++ (block, insts) :: behind)).Nodup) :
    push (front ++ (block, insts) :: behind) inst block =
      front ++ (block, insts ++ [inst]) :: behind := by
  have hother : ∀ entry ∈ front ++ behind, entry.1 ≠ block := fun entry => block_ne h
  rw [push, List.map_append, List.map_cons, map_other, map_other, if_pos rfl]
  · exact fun entry hentry => if_neg (hother entry (List.mem_append_right _ hentry))
  · exact fun entry hentry => if_neg (hother entry (List.mem_append_left _ hentry))

end

end Outline

/-! ## Edits -/

/-- An edit of a layout. -/
inductive LayoutEdit
  /-- A new block at the end. -/
  | appendBlock (block : Block)
  /-- A new statement at the end of a block. -/
  | appendInst (inst : Inst) (block : Block)
  /-- A new statement directly before another one. -/
  | insertBefore (inst anchor : Inst)
  /-- A new statement directly after another one. -/
  | insertAfter (inst anchor : Inst)
  /-- A new statement in the place of another one. -/
  | replaceInst (old new : Inst)
  /-- A statement taken out. -/
  | removeInst (inst : Inst)

namespace LayoutEdit

/-- Makes an edit. -/
def run (layout : LinkedLayout) : LayoutEdit → Checked LinkedLayout
  | appendBlock block => layout.appendBlock block
  | appendInst inst block => layout.appendInst inst block
  | insertBefore inst anchor => layout.insertBefore inst anchor
  | insertAfter inst anchor => layout.insertAfter inst anchor
  | replaceInst old new => layout.replaceInst old new
  | removeInst inst => layout.removeInst inst

/-- What an edit does to the lists. -/
def revise (outline : Outline) : LayoutEdit → Outline
  | appendBlock block => outline ++ [(block, [])]
  | appendInst inst block => outline.push inst block
  | insertBefore inst anchor => outline.substitute anchor [inst, anchor]
  | insertAfter inst anchor => outline.substitute anchor [anchor, inst]
  | replaceInst old new => outline.substitute old [new]
  | removeInst inst => outline.substitute inst []

/-- A key that can be stored and is not placed yet. -/
def IsNew {kind : KeyKind} (key : Key kind) (placed : List (Key kind)) : Prop :=
  key.Fits ∧ key ∉ placed

instance {kind : KeyKind} (key : Key kind) (placed : List (Key kind)) :
    Decidable (IsNew key placed) := inferInstanceAs (Decidable (key.Fits ∧ key ∉ placed))

/-- When an edit may be made: new keys are new, and the others are placed. -/
def Allowed (outline : Outline) : LayoutEdit → Prop
  | appendBlock block => IsNew block outline.blocks
  | appendInst inst block => IsNew inst outline.stmts ∧ block ∈ outline.blocks
  | insertBefore inst anchor | insertAfter inst anchor =>
    IsNew inst outline.stmts ∧ anchor ∈ outline.stmts
  | replaceInst old new => IsNew new outline.stmts ∧ old ∈ outline.stmts
  | removeInst inst => inst ∈ outline.stmts

instance (outline : Outline) : (edit : LayoutEdit) → Decidable (edit.Allowed outline)
  | appendBlock block => inferInstanceAs (Decidable (IsNew block outline.blocks))
  | appendInst inst block =>
    inferInstanceAs (Decidable (IsNew inst outline.stmts ∧ block ∈ outline.blocks))
  | insertBefore inst anchor | insertAfter inst anchor =>
    inferInstanceAs (Decidable (IsNew inst outline.stmts ∧ anchor ∈ outline.stmts))
  | replaceInst old new =>
    inferInstanceAs (Decidable (IsNew new outline.stmts ∧ old ∈ outline.stmts))
  | removeInst inst => inferInstanceAs (Decidable (inst ∈ outline.stmts))

/-- **ONE EDIT** that is allowed succeeds, and does to the lists what it is named for. -/
theorem run_ok {layout : LinkedLayout} {outline : Outline} (h : layout.Represents outline)
    {edit : LayoutEdit} (hallowed : edit.Allowed outline) :
    ∃ after, edit.run layout = .ok after ∧ after.Represents (edit.revise outline) := by
  -- what an edit names is at one place, where the outline is taken apart
  cases edit with
  | appendBlock block => exact h.appendBlock hallowed.2 hallowed.1
  | appendInst inst block =>
      obtain ⟨⟨hfits, hnew⟩, hblock⟩ := hallowed
      obtain ⟨⟨_, insts⟩, hentry, rfl⟩ := List.mem_map.mp hblock
      obtain ⟨front, behind, rfl⟩ := List.append_of_mem hentry
      rw [revise, push_split h.view.blocksNodup]
      exact h.appendInst hnew hfits
  | insertBefore inst anchor =>
      obtain ⟨⟨hfits, hnew⟩, hanchor⟩ := hallowed
      obtain ⟨front, block, before, after, behind, rfl⟩ := exists_split hanchor
      rw [revise, substitute_split h.view.stmtsNodup]
      exact h.insertBefore hnew hfits
  | insertAfter inst anchor =>
      obtain ⟨⟨hfits, hnew⟩, hanchor⟩ := hallowed
      obtain ⟨front, block, before, after, behind, rfl⟩ := exists_split hanchor
      rw [revise, substitute_split h.view.stmtsNodup]
      exact h.insertAfter hnew hfits
  | replaceInst old new =>
      obtain ⟨⟨hfits, hnew⟩, hold⟩ := hallowed
      obtain ⟨front, block, before, after, behind, rfl⟩ := exists_split hold
      rw [revise, substitute_split h.view.stmtsNodup]
      exact h.replaceInst hnew hfits
  | removeInst inst =>
      obtain ⟨front, block, before, after, behind, rfl⟩ := exists_split hallowed
      rw [revise, substitute_split h.view.stmtsNodup]
      exact h.removeInst

/-! ## Any number of edits -/

/-- Makes edits one after another. -/
def runAll (edits : List LayoutEdit) (layout : LinkedLayout) : Checked LinkedLayout :=
  edits.foldlM run layout

/-- What edits do to the lists, one after another. -/
def reviseAll (edits : List LayoutEdit) (outline : Outline) : Outline := edits.foldl revise outline

/-- Each edit may be made once those before it are. -/
def AllAllowed : List LayoutEdit → Outline → Prop
  | [], _ => True
  | edit :: edits, outline => edit.Allowed outline ∧ AllAllowed edits (edit.revise outline)

instance decideAllAllowed : (edits : List LayoutEdit) → (outline : Outline) →
    Decidable (AllAllowed edits outline)
  | [], _ => isTrue trivial
  | edit :: edits, outline =>
    have := decideAllAllowed edits (edit.revise outline)
    inferInstanceAs (Decidable (edit.Allowed outline ∧ AllAllowed edits (edit.revise outline)))

/-- Allowed edits succeed one after the other. -/
theorem runAll_ok {layout : LinkedLayout} {outline : Outline} (h : layout.Represents outline)
    {edits : List LayoutEdit} (hallowed : AllAllowed edits outline) :
    ∃ after, runAll edits layout = .ok after ∧ after.Represents (reviseAll edits outline) := by
  induction edits generalizing layout outline with
  | nil => exact ⟨layout, rfl, h⟩
  | cons edit edits ih =>
      obtain ⟨next, hnext, hrepresents⟩ := run_ok h hallowed.1
      obtain ⟨after, hafter, hrepresents⟩ := ih hrepresents hallowed.2
      refine ⟨after, ?_, hrepresents⟩
      rw [runAll, List.foldlM_cons, Checked.bind_ok hnext]
      exact hafter

/-- **A LAYOUT IS A LIST OF LISTS**: edits that are allowed succeed, and what the layout
    lists and looks up afterwards is what the edits make of the lists. -/
theorem runAll_agrees {edits : List LayoutEdit} (hallowed : AllAllowed edits []) :
    ∃ layout, runAll edits {} = .ok layout ∧ layout.Agrees (reviseAll edits []) := by
  obtain ⟨layout, hlayout, hrepresents⟩ := runAll_ok LinkedLayout.represents_nil hallowed
  exact ⟨layout, hlayout, hrepresents.agrees⟩

/-- Edits at both ends and in the middle of a block, of an only statement too, and
    statements that are taken out and put back elsewhere. -/
def shuffle : List LayoutEdit :=
  [appendBlock ⟨0⟩, appendInst ⟨0⟩ ⟨0⟩, insertBefore ⟨1⟩ ⟨0⟩, insertAfter ⟨2⟩ ⟨0⟩,
    insertAfter ⟨3⟩ ⟨1⟩, appendBlock ⟨1⟩, appendInst ⟨4⟩ ⟨1⟩, replaceInst ⟨0⟩ ⟨5⟩,
    removeInst ⟨1⟩, removeInst ⟨2⟩, removeInst ⟨4⟩, appendInst ⟨4⟩ ⟨0⟩,
    insertBefore ⟨0⟩ ⟨5⟩, appendInst ⟨1⟩ ⟨1⟩]

/-- The edits of the example are allowed, and every lookup agrees with the lists. -/
theorem shuffle_agrees : AllAllowed shuffle [] ∧
    reviseAll shuffle [] = [(⟨0⟩, [⟨3⟩, ⟨0⟩, ⟨5⟩, ⟨4⟩]), (⟨1⟩, [⟨1⟩])] ∧
    ∃ layout, runAll shuffle {} = .ok layout ∧ layout.Agrees (reviseAll shuffle []) :=
  ⟨by decide, by decide, runAll_agrees (by decide)⟩

end LayoutEdit

end DecafBackend
