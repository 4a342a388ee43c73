import DecafBackend.Proofs.FrameLayout
import DecafBackend.Proofs.Liveness

/-! # Slots for accesses

    The frame of a well-formed body has a slot for every variable and temporary that
    some access finds in no register, and knows where every argument is.  Frames are
    measured in 32 bits: nothing else than that can keep a body from having one, and
    only a body with hundreds of millions of locations or arguments gets there.

    * `Checked.Within` — computations that fail by overflow only, if they are large
    * `Body.Oversized` — what is too large for 32 bits
    * `Frame.compute_within` — the frame of a body
    * `Frame.allocationSize_within`, `Laid.param?_within` — its size, and arguments -/

namespace DecafBackend

namespace Checked

variable {α β σ : Type} {large : Prop}

/-- A computation has a result with some property, unless it is so large that it
    overflows. -/
def Within (large : Prop) (x : Checked α) (post : α → Prop) : Prop :=
  (∃ a, x = .ok a ∧ post a) ∨ x = .error .overflow ∧ large

/-- What gives a result that is right ends within bounds. -/
theorem Within.pure {a : α} {post : α → Prop} (h : post a) :
    Within large (Except.ok a : Checked α) post := Or.inl ⟨a, rfl, h⟩

/-- What comes to its end step by step comes to its end as a whole. -/
theorem Within.bind {x : Checked α} {f : α → Checked β} {post : α → Prop} {post' : β → Prop}
    (h : Within large x post) (hnext : ∀ a, post a → Within large (f a) post') :
    Within large (x >>= f) post' := by
  rcases h with ⟨a, rfl, ha⟩ | ⟨rfl, hlarge⟩
  · exact hnext a ha
  · exact Or.inr ⟨rfl, hlarge⟩

/-- A weaker result is right too. -/
theorem Within.mono {x : Checked α} {post post' : α → Prop} (h : Within large x post)
    (hpost : ∀ a, post a → post' a) : Within large x post' :=
  h.imp_left (Exists.imp fun a ha => ⟨ha.1, hpost a ha.2⟩)

/-- A traversal, with what is known once some elements are done. -/
theorem Within.foldlM {f : σ → α → Checked σ} {l : List α} {motive : List α → σ → Prop}
    (hstep : ∀ done a s, a ∈ l → motive done s → Within large (f s a) (motive (done ++ [a])))
    {done : List α} {s : σ} (hs : motive done s) :
    Within large (l.foldlM f s) (motive (done ++ l)) := by
  induction l generalizing done s with
  | nil =>
      rw [List.append_nil]
      exact Within.pure hs
  | cons a l ih =>
      rw [List.foldlM_cons, List.append_cons]
      refine (hstep done a s List.mem_cons_self hs).bind fun next hnext => ih ?_ hnext
      exact fun done b s hb => hstep done b s (List.mem_cons_of_mem a hb)

end Checked

/-- The accesses of a statement: the write first. -/
def Command.accesses (stmt : Inst) (command : Command) : List Access :=
  (command.dest?.map (Access.mk stmt)).toList ++ command.reads stmt

/-- The locations or arguments of a body are so many that their slots, with six for
    arguments and sixteen pushed registers, may not fit 32 bits, or a call has so many
    arguments that their size may not fit 64 bits. -/
def Body.Oversized (body : Body) : Prop :=
  268435432 < body.locations.size ∨ 268435432 < body.params.length ∨
    ∃ inst target args isExternal saved,
      body.record inst = .ok (.call target args isExternal saved) ∧
        1152921504606846976 ≤ args.length

/-- The accesses of a valid statement are to locations of the body. -/
theorem Command.Valid.accesses {body : Body} {stmt : Inst} {command : Command}
    (h : command.Valid body stmt) {access : Access} (haccess : access ∈ command.accesses stmt) :
    access.loc.index < body.locations.size := by
  rcases List.mem_append.mp haccess with hdest | hreads
  · obtain ⟨loc, hloc, rfl⟩ := Option.map_eq_some_iff.mp (Option.mem_toList.mp hdest)
    obtain ⟨location, hlocation, -⟩ := h.dest loc hloc
    exact (Array.getElem?_eq_some_iff.mp hlocation).1
  · exact h.reads access hreads

open Checked (Within)

/-- A number fits unless it is too large. -/
theorem fit32_within {large : Prop} {n : Int} (h : n < -2147483648 ∨ 2147483647 < n → large) :
    Within large (fit32 n) (· = n) := by
  rw [fit32]
  split
  · exact Within.pure rfl
  · next hout => exact Or.inr ⟨rfl, h (by omega)⟩

namespace Frame

variable {body : Body} {frame after : Frame} {noted : List Access}

/-- A frame with slots for the accesses noted so far, and no more slots than there
    are locations. -/
structure Filled (body : Body) (noted : List Access) (frame : Frame) : Prop where
  size : frame.size ≤ 8 * (6 + frame.slots.size)
  keys : ∀ loc ∈ frame.slots, loc.index < body.locations.size
  slot : ∀ access ∈ noted, body.bindings.get? access = none → body.tracks access.loc = true →
    ∃ offset, frame.slot? access.loc = some offset

/-- Every slot belongs to a location of its own. -/
theorem Filled.slots_le (h : Filled body noted frame) : frame.slots.size ≤ body.locations.size := by
  have hnodup : (frame.slots.keys.map Key.index).Nodup := by
    refine List.Pairwise.map _ ?_ Std.ExtTreeMap.distinct_keys
    rintro ⟨a⟩ ⟨b⟩ hne rfl
    exact hne Std.ReflCmp.compare_self
  have hsubset : frame.slots.keys.map Key.index ⊆ List.range body.locations.size := by
    intro index hindex
    obtain ⟨loc, hloc, rfl⟩ := List.mem_map.mp hindex
    exact List.mem_range.mpr (h.keys loc (Std.ExtTreeMap.mem_keys.mp hloc))
  have hle := hnodup.length_le_of_subset hsubset
  rwa [List.length_map, Std.ExtTreeMap.length_keys, List.length_range] at hle

/-- A frame is no larger than its parameters and one slot for each location. -/
theorem Filled.size_le (h : Filled body noted frame) :
    frame.size ≤ 8 * (6 + body.locations.size) := by
  have hsize := h.size
  have hslots := h.slots_le
  omega

/-- The next slot is there unless the frame is too large. -/
theorem nextSlot_within {large : Prop} (h : 2147483647 < frame.size + 8 → large) :
    Within large frame.nextSlot
      (· = (-((frame.size + 8 : Nat) : Int), { frame with size := frame.size + 8 })) := by
  have hfits : Within large (fit32 ((frame.size + slotSize : Nat) : Int))
      (· = ((frame.size + slotSize : Nat) : Int)) :=
    fit32_within fun hout => h (by simp only [slotSize] at hout; omega)
  exact hfits.bind fun _ _ => Within.pure rfl

/-- The first six arguments have slots. -/
theorem addParams_ok {count : Nat} (h : frame.size + 8 * count ≤ 2147483647) :
    ∃ after, addParams count frame = .ok after ∧ after.size = frame.size + 8 * count ∧
      after.slots = frame.slots := by
  induction count generalizing frame with
  | zero => exact ⟨frame, rfl, rfl, rfl⟩
  | succ count ih =>
      rcases @nextSlot_within frame False (by omega) with ⟨next, hnext, rfl⟩ | ⟨-, hlarge⟩
      · obtain ⟨after, hafter, hsize, hslots⟩ := @ih { frame with
          size := frame.size + 8, params := frame.params ++ [-((frame.size + 8 : Nat) : Int)] }
          (by simp only; omega)
        refine ⟨after, ?_, by simp only at hsize; omega, hslots⟩
        rw [addParams, hnext]
        exact hafter
      · exact hlarge.elim

/-- What is in no register gets a slot. -/
theorem noteAccess_within {access : Access} (h : Filled body noted frame)
    (hloc : access.loc.index < body.locations.size) :
    Within body.Oversized (noteAccess body frame access) (Filled body (noted ++ [access])) := by
  have hlocation := Array.getElem?_eq_getElem hloc
  have htracked : body.isTracked access.loc = .ok (body.tracks access.loc) := by
    rw [Body.isTracked, Body.location_eq hlocation, Body.tracks, hlocation]
    rfl
  rw [noteAccess, htracked]
  show Within _ (if _ then _ else _) _
  split
  · next hneeds =>
      simp only [Bool.and_eq_true, Bool.not_eq_true'] at hneeds
      have hsize := h.size_le
      refine (nextSlot_within (fun hout => Or.inl (by omega))).bind ?_
      rintro _ rfl
      refine Within.pure ⟨?_, ?_, ?_⟩
      · have hold := h.size
        simp only [Std.ExtTreeMap.size_insert, hneeds.2, Bool.false_eq_true, if_false]
        omega
      · intro loc hmem
        rcases Std.ExtTreeMap.mem_insert.mp hmem with heq | hmem
        · rw [← Std.LawfulEqOrd.compare_eq_iff_eq.mp heq]
          exact hloc
        · exact h.keys loc hmem
      · intro other hother hunbound htracks
        show ∃ offset, (frame.slots.insert access.loc _)[other.loc]? = some offset
        rw [Maps.getElem?_insert]
        split
        · exact ⟨_, rfl⟩
        · next hne =>
            rcases List.mem_append.mp hother with hnoted | hlast
            · exact h.slot other hnoted hunbound htracks
            · exact absurd (List.mem_singleton.mp hlast ▸ rfl) hne
  · next hneeds =>
      refine Within.pure ⟨h.size, h.keys, fun other hother hunbound htracks => ?_⟩
      rcases List.mem_append.mp hother with hnoted | hlast
      · exact h.slot other hnoted hunbound htracks
      · obtain rfl := List.mem_singleton.mp hlast
        -- the access needs a slot, so its location has one
        rw [htracks, hunbound, Bool.and_eq_true, not_and, Bool.not_eq_true, Bool.not_eq_false']
          at hneeds
        exact Maps.mem_iff.mp (Std.ExtTreeMap.mem_iff_contains.mpr (hneeds rfl))

/-- The accesses of a statement are found. -/
theorem accessesOf_eq {stmt : Inst} {command : Command} (h : body.command? stmt = some command) :
    accessesOf body stmt = .ok (command.accesses stmt) := by
  obtain ⟨record, hrecord, hdest, -⟩ := Body.record_command h
  rw [accessesOf, Body.record_eq hrecord, Body.reads_eq h, Command.accesses, ← hdest]
  rfl

/-- **SLOTS FOR ALL ACCESSES**: the frame of a body has a slot for whatever is
    accessed and in no register. -/
theorem compute_within (wf : WellFormed body) :
    Within body.Oversized (compute body) fun frame =>
      ∃ noted, Filled body noted frame ∧ ∀ stmt ∈ body.stmts, ∀ command,
        body.command? stmt = some command → command.accesses stmt ⊆ noted := by
  have hsix : Nat.min body.params.length Register.arguments.length ≤ 6 := Nat.min_le_right _ _
  have hempty : ({} : Frame).size = 0 := rfl
  obtain ⟨start, hstart, hsize, hslots⟩ :=
    @addParams_ok {} (Nat.min body.params.length Register.arguments.length) (by omega)
  have hfilled : Filled body [] start := by
    refine ⟨by omega, ?_, List.forall_mem_nil _⟩
    rw [hslots]
    exact fun loc hmem => absurd hmem Std.ExtTreeMap.not_mem_empty
  -- the invariant of the loop: what the statements so far access has been noted
  let motive : List Inst → Frame → Prop := fun done frame =>
    ∃ noted, Filled body noted frame ∧ ∀ stmt ∈ done, ∀ command,
      body.command? stmt = some command → command.accesses stmt ⊆ noted
  rw [compute, hstart]
  refine @Within.foldlM _ _ _ _ body.stmts motive (fun done stmt frame hstmt hdone => ?_) [] start
    ⟨[], hfilled, List.forall_mem_nil _⟩
  obtain ⟨noted, hnoted, hdone⟩ := hdone
  obtain ⟨command, hcommand, hvalid⟩ := wf.commands stmt hstmt
  rw [accessesOf_eq hcommand]
  refine (Within.foldlM (fun _ access _ haccess hframe =>
    noteAccess_within hframe (hvalid.accesses haccess)) hnoted).mono fun after hafter => ?_
  refine ⟨_, hafter, fun other hother command' hcommand' => ?_⟩
  rcases List.mem_append.mp hother with hmem | hlast
  · exact List.subset_append_of_subset_left _ (hdone other hmem command' hcommand')
  · obtain rfl := List.mem_singleton.mp hlast
    cases hcommand.symm.trans hcommand'
    exact List.subset_append_right _ _

/-- What is taken off the stack pointer fits 32 bits. -/
theorem allocationSize_within {pushes : Nat} (h : Filled body noted frame) (hpushes : pushes ≤ 16) :
    Within body.Oversized (frame.allocationSize pushes) fun _ => True := by
  have hsize := h.size_le
  have hcount : Int.bmod pushes 4294967296 = pushes := Int.bmod_eq_of_le (by omega) (by omega)
  rw [allocationSize, hcount]
  simp only [slotSize]
  refine (fit32_within fun hout => by omega).bind ?_
  rintro _ rfl
  refine (fit32_within fun hout => Or.inl (by omega)).bind ?_
  rintro _ rfl
  refine (fit32_within fun hout => Or.inl (by omega)).bind ?_
  rintro _ rfl
  exact (fit32_within fun hout => Or.inl (by omega)).mono fun _ _ => trivial

/-- Every argument has a place. -/
theorem Laid.param?_within {index : Nat}
    (h : frame.Laid (Nat.min body.params.length Register.arguments.length))
    (hindex : index < body.params.length) :
    Within body.Oversized (frame.param? index) fun offset => ∃ found, offset = some found := by
  have hsix : Register.arguments.length = 6 := rfl
  by_cases hlt : index < Nat.min body.params.length Register.arguments.length
  · rw [h.param?_register hlt]
    exact Within.pure ⟨_, rfl⟩
  · have hnone : frame.params[index]? = none := by
      rw [List.getElem?_eq_none_iff, h.params, List.length_map, List.length_range]
      exact Nat.le_of_not_lt hlt
    have hlong : Register.arguments.length ≤ index := by
      refine Nat.le_of_not_lt fun hshort => hlt (Nat.lt_min.mpr ⟨hindex, hshort⟩)
    rw [param?, hnone]
    show Within _ (if _ then _ else _) _
    rw [if_pos hlong, hsix]
    by_cases hmany : 268435432 < body.params.length
    · exact (fit32_within fun _ => Or.inr (Or.inl hmany)).bind fun _ _ =>
        (fit32_within fun _ => Or.inr (Or.inl hmany)).bind fun _ _ => Within.pure ⟨_, rfl⟩
    · have hposition : Int.bmod ((index - 6 : Nat) : Int) 4294967296 = (index - 6 : Nat) :=
        Int.bmod_eq_of_le (by omega) (by omega)
      rw [hposition]
      simp only [slotSize]
      refine (fit32_within fun hout => by omega).bind ?_
      rintro _ rfl
      exact (fit32_within fun hout => by omega).bind fun _ _ => Within.pure ⟨_, rfl⟩

end Frame

end DecafBackend
