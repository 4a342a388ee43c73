import DecafBackend.Machine.Frame
import DecafBackend.Proofs.Checked
import DecafBackend.Proofs.Maps

/-! # Layout of stack frames

    The slots of a frame lie one below the other: first those of the arguments
    that come in registers, then those of the locations, and no two of them are
    in one place.  What is taken off the stack pointer covers them all.

    * `Frame.Laid` — how the slots of a frame lie
    * `Frame.compute_laid` — every frame is laid out like that
    * `Frame.allocationSize_covers` — the size of a frame on the stack -/

namespace DecafBackend

/-- What fits is what it was, and within 32 bits. -/
theorem fit32_eq_ok {n m : Int} (h : fit32 n = .ok m) :
    m = n ∧ -2147483648 ≤ n ∧ n ≤ 2147483647 := by
  rw [fit32] at h
  split at h
  · next hfits =>
      cases h
      exact ⟨rfl, hfits⟩
  · cases h

namespace Frame

/-- The slots of a frame lie one below the other: those of `count` arguments, and
    below them those of the locations. -/
structure Laid (frame : Frame) (count : Nat) : Prop where
  params : frame.params = (List.range count).map fun i : Nat => -(8 * (i + 1) : Int)
  least : 8 * count ≤ frame.size
  size : frame.size ≤ 2147483647
  slots : ∀ {loc : Loc} {offset : Int}, frame.slot? loc = some offset →
    -(frame.size : Int) ≤ offset ∧ offset ≤ -(8 * (count + 1) : Int)
  apart : ∀ {a b : Loc} {offset : Int}, frame.slot? a = some offset →
    frame.slot? b = some offset → a = b

/-- The next slot is eight bytes further down. -/
theorem nextSlot_eq_ok {frame : Frame} {result : Int × Frame} (h : frame.nextSlot = .ok result) :
    result = (-((frame.size + 8 : Nat) : Int), { frame with size := frame.size + 8 }) ∧
      frame.size + 8 ≤ 2147483647 := by
  obtain ⟨size, hsize, h⟩ := Checked.bind_eq_ok h
  cases h
  obtain ⟨-, -, hle⟩ := fit32_eq_ok hsize
  exact ⟨rfl, by simp only [slotSize] at hle; omega⟩

/-- A frame without slots for locations. -/
theorem Laid.empty : Laid {} 0 where
  params := rfl
  least := Nat.le_refl 0
  size := Nat.zero_le _
  slots h := by cases h
  apart h := by cases h

/-- A parameter more lies below those that are there. -/
theorem Laid.addParam {frame after : Frame} {count : Nat} {offset : Int} (h : frame.Laid count)
    (hempty : ∀ loc, frame.slot? loc = none) (hsize : frame.size = 8 * count)
    (hnext : frame.nextSlot = .ok (offset, after)) :
    Laid { after with params := after.params ++ [offset] } (count + 1) := by
  obtain ⟨heq, hfits⟩ := nextSlot_eq_ok hnext
  cases heq
  refine ⟨?_, ?_, hfits, ?_, h.apart⟩
  · have hoffset : -((frame.size + 8 : Nat) : Int) = -(8 * (count + 1) : Int) := by omega
    simp only [h.params, List.range_succ, List.map_append, List.map_singleton, hoffset]
  · show 8 * (count + 1) ≤ frame.size + 8
    omega
  · intro loc offset hslot
    cases (hempty loc).symm.trans hslot

/-- The parameters lie one below the other. -/
theorem addParams_laid {count n : Nat} {frame after : Frame} (h : frame.Laid n)
    (hempty : ∀ loc, frame.slot? loc = none) (hsize : frame.size = 8 * n)
    (hadd : addParams count frame = .ok after) : after.Laid (n + count) := by
  induction count generalizing frame n with
  | zero =>
      cases hadd
      exact h
  | succ count ih =>
      obtain ⟨⟨offset, next⟩, hnext, hrest⟩ := Checked.bind_eq_ok hadd
      have hlaid := h.addParam hempty hsize hnext
      obtain ⟨heq, -⟩ := nextSlot_eq_ok hnext
      cases heq
      rw [show n + (count + 1) = n + 1 + count by omega]
      exact ih hlaid hempty (by simp only [hsize]; omega) hrest

/-- A slot more is below all others. -/
theorem Laid.addSlot {frame after : Frame} {count : Nat} {offset : Int} {loc : Loc}
    (h : frame.Laid count) (hnext : frame.nextSlot = .ok (offset, after)) :
    Laid { after with slots := after.slots.insert loc offset } count := by
  obtain ⟨heq, hfits⟩ := nextSlot_eq_ok hnext
  cases heq
  have hleast := h.least
  -- a slot is the new one, or one of those before
  have hslot : ∀ {other : Loc} {found : Int},
      (frame.slots.insert loc (-((frame.size + 8 : Nat) : Int)))[other]? = some found →
      (other = loc ∧ found = -((frame.size + 8 : Nat) : Int)) ∨
        (other ≠ loc ∧ frame.slot? other = some found) := by
    intro other found hfound
    rw [Maps.getElem?_insert] at hfound
    split at hfound
    · next heq =>
        cases hfound
        exact Or.inl ⟨heq.symm, rfl⟩
    · next hne => exact Or.inr ⟨fun heq => hne heq.symm, hfound⟩
  refine ⟨h.params, ?_, hfits, ?_, ?_⟩
  · show 8 * count ≤ frame.size + 8
    omega
  · intro other found hfound
    show -((frame.size + 8 : Nat) : Int) ≤ found ∧ found ≤ _
    rcases hslot hfound with ⟨-, rfl⟩ | ⟨-, hold⟩
    · omega
    · have := h.slots hold
      omega
  · intro a b found ha hb
    rcases hslot ha with ⟨rfl, rfl⟩ | ⟨-, hold⟩
    · rcases hslot hb with ⟨rfl, -⟩ | ⟨-, hold'⟩
      · rfl
      · have := h.slots hold'
        omega
    · rcases hslot hb with ⟨rfl, rfl⟩ | ⟨-, hold'⟩
      · have := h.slots hold
        omega
      · exact h.apart hold hold'

/-- To note an access keeps the frame in order. -/
theorem noteAccess_laid {body : Body} {frame after : Frame} {access : Access} {count : Nat}
    (h : frame.Laid count) (hnote : noteAccess body frame access = .ok after) :
    after.Laid count := by
  obtain ⟨isTracked, -, hnote⟩ := Checked.bind_eq_ok hnote
  dsimp only at hnote
  split at hnote
  · obtain ⟨⟨offset, next⟩, hnext, hnote⟩ := Checked.bind_eq_ok hnote
    cases hnote
    exact h.addSlot hnext
  · cases hnote
    exact h

/-- **SLOTS ARE APART** in every frame. -/
theorem compute_laid {body : Body} {frame : Frame} (h : compute body = .ok frame) :
    frame.Laid (Nat.min body.params.length Register.arguments.length) := by
  obtain ⟨start, hstart, h⟩ := Checked.bind_eq_ok h
  have hlaid := addParams_laid Laid.empty (fun _ => rfl) rfl hstart
  rw [Nat.zero_add] at hlaid
  refine Checked.foldlM_invariant (Laid · _) h hlaid ?_
  intro frame stmt after _ hframe hstmt
  obtain ⟨accesses, -, hstmt⟩ := Checked.bind_eq_ok hstmt
  exact Checked.foldlM_invariant (Laid · _) hstmt hframe
    fun frame access after _ hframe hnote => noteAccess_laid hframe hnote

/-- A frame takes at least the size of its slots on the stack, and as much more as
    makes a multiple of 16 of it and the registers pushed behind it. -/
theorem allocationSize_covers {frame : Frame} {pushes : Nat} {size : Int}
    (hpushes : pushes ≤ 16) (h : frame.allocationSize pushes = .ok size) :
    frame.size ≤ size ∧ size ≤ 2147483647 ∧ (size + 8 * pushes) % 16 = 0 := by
  obtain ⟨pushed, hpushed, h⟩ := Checked.bind_eq_ok h
  obtain ⟨used, hused, h⟩ := Checked.bind_eq_ok h
  obtain ⟨rounded, hrounded, h⟩ := Checked.bind_eq_ok h
  have hcount : Int.bmod pushes 4294967296 = pushes :=
    Int.bmod_eq_of_le (by omega) (by omega)
  rw [hcount] at hpushed
  have hpushed := (fit32_eq_ok hpushed).1
  have hused := (fit32_eq_ok hused).1
  have hrounded := (fit32_eq_ok hrounded).1
  have hsize := fit32_eq_ok h
  simp only [slotSize] at hpushed
  omega

/-- The offset of an incoming argument that comes in a register. -/
theorem Laid.param?_register {frame : Frame} {count index : Nat} (h : frame.Laid count)
    (hlt : index < count) : frame.param? index = .ok (some (-(8 * (index + 1) : Int))) := by
  have hfound : frame.params[index]? = some (-(8 * (index + 1) : Int)) := by
    rw [h.params, List.getElem?_map, List.getElem?_range hlt]
    rfl
  rw [param?, hfound]

/-- The offset of an incoming argument that comes on the stack. -/
theorem Laid.param?_stack {frame : Frame} {count index : Nat} {offset : Int} (h : frame.Laid count)
    (hcount : count ≤ index) (hindex : index < 2147483648)
    (hparam : frame.param? index = .ok (some offset)) :
    6 ≤ index ∧ offset = 16 + 8 * (index - 6 : Nat) := by
  have hnone : frame.params[index]? = none := by
    rw [List.getElem?_eq_none_iff, h.params, List.length_map, List.length_range]
    exact hcount
  rw [param?, hnone] at hparam
  dsimp only at hparam
  split at hparam
  · next hlong =>
      obtain ⟨above, habove, hparam⟩ := Checked.bind_eq_ok hparam
      obtain ⟨total, htotal, hparam⟩ := Checked.bind_eq_ok hparam
      cases hparam
      have hsix : Register.arguments.length = 6 := rfl
      rw [hsix] at hlong habove
      have hposition : Int.bmod ((index - 6 : Nat) : Int) 4294967296 = (index - 6 : Nat) :=
        Int.bmod_eq_of_le (by omega) (by omega)
      rw [hposition] at habove
      have habove := (fit32_eq_ok habove).1
      have htotal := (fit32_eq_ok htotal).1
      simp only [slotSize] at habove htotal
      exact ⟨hlong, by omega⟩
  · cases hparam

end Frame

end DecafBackend
