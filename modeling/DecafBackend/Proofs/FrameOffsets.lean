import DecafBackend.Proofs.FrameSlots

/-! # Offsets in stack frames

    A frame has one slot for each location that some access finds in no register, in
    the order of the first such access, below the slots of the arguments that come in
    registers.  That is all that is needed to know where everything is.

    * `Body.Accesses`, `Body.slotted` — accesses, and the locations that need slots
    * `Frame.Holding`, `Frame.compute_holding` — the slots of a frame, one by one
    * `Frame.Apart`, `Frame.compute_apart` — bodies with a frame, and what is true of it -/

namespace DecafBackend

namespace Body

/-! ## Accesses -/

/-- A statement saves to a location, or a record that it owns reads one. -/
inductive Accesses (body : Body) (stmt : Inst) : Access → Prop
  | save {value : Inst} {dest : Loc} :
    body.record stmt = .ok (.save value dest) → Accesses body stmt ⟨stmt, dest⟩
  | read {reads : List Access} {access : Access} :
    body.reads stmt = .ok reads → access ∈ reads → Accesses body stmt access

/-- The statements name records and locations that the body has. -/
def Readable (body : Body) : Prop :=
  ∀ stmt ∈ body.stmts, (∃ record, body.record stmt = .ok record) ∧
    (∃ reads, body.reads stmt = .ok reads) ∧
    ∀ access, body.Accesses stmt access → access.loc.index < body.locations.size

/-- Whether an access is one to a variable or temporary that no register serves. -/
def isUnbound (body : Body) (access : Access) : Bool :=
  body.tracks access.loc && (body.bindings.get? access).isNone

/-- The locations that need slots for some accesses, in the order of first need. -/
def slottedBy (body : Body) (accesses : List Access) : List Loc :=
  ((accesses.filter body.isUnbound).map Access.loc).eraseDups

/-- The accesses of all statements, in order. -/
def allAccesses (body : Body) : List Access :=
  body.stmts.flatMap fun stmt => (Frame.accessesOf body stmt).toOption.getD []

/-- The locations that need slots, in the order of first need. -/
def slotted (body : Body) : List Loc := body.slottedBy body.allAccesses

/-- The number of arguments that come in registers. -/
def registerParams (body : Body) : Nat := Nat.min body.params.length Register.arguments.length

/-- The number of slots fits 32 bits. -/
def SlotsFit (body : Body) : Prop := 8 * (body.registerParams + body.slotted.length) ≤ 2147483647

variable {body : Body} {stmt : Inst} {access : Access} {accesses : List Access} {loc : Loc}

/-- The accesses of a statement are its save and its reads. -/
theorem accessesOf_iff (h : Frame.accessesOf body stmt = .ok accesses) :
    access ∈ accesses ↔ body.Accesses stmt access := by
  obtain ⟨record, hrecord, h⟩ := Checked.bind_eq_ok h
  obtain ⟨reads, hreads, h⟩ := Checked.bind_eq_ok h
  cases h
  rw [List.mem_append]
  constructor
  · rintro (hsave | hread)
    · obtain ⟨dest, hdest, rfl⟩ := Option.map_eq_some_iff.mp (Option.mem_toList.mp hsave)
      cases record with
      | save value dest =>
          cases hdest
          exact .save hrecord
      | load | param | binary | unary | call | use | label | jump | branch | ret | exit =>
        cases hdest
    · exact .read hreads hread
  · intro haccess
    cases haccess with
    | save hsave =>
        cases hrecord.symm.trans hsave
        exact Or.inl List.mem_cons_self
    | read hread hmem =>
        cases hreads.symm.trans hread
        exact Or.inr hmem

/-- A readable statement has its accesses. -/
theorem Readable.accessesOf_ok (h : body.Readable) (hstmt : stmt ∈ body.stmts) :
    ∃ accesses, Frame.accessesOf body stmt = .ok accesses := by
  obtain ⟨⟨record, hrecord⟩, ⟨reads, hreads⟩, -⟩ := h stmt hstmt
  exact ⟨_, by rw [Frame.accessesOf, Checked.bind_ok hrecord, Checked.bind_ok hreads]; rfl⟩

/-- A location that can be asked about is one of the body. -/
theorem lt_of_isTracked {isTracked : Bool} (h : body.isTracked loc = .ok isTracked) :
    loc.index < body.locations.size := by
  obtain ⟨location, hlocation, -⟩ := Checked.bind_eq_ok h
  rw [Body.location] at hlocation
  split at hlocation
  · next hfound => exact (Array.getElem?_eq_some_iff.mp hfound).1
  · cases hlocation

/-- Well-formed bodies are readable. -/
theorem Readable.of_wellFormed (wf : WellFormed body) : body.Readable := by
  intro stmt hstmt
  obtain ⟨command, hcommand, hvalid⟩ := wf.commands stmt hstmt
  obtain ⟨record, hrecord, -⟩ := record_command hcommand
  refine ⟨⟨record, record_eq hrecord⟩, ⟨_, reads_eq hcommand⟩, fun access haccess => ?_⟩
  exact hvalid.accesses ((accessesOf_iff (Frame.accessesOf_eq hcommand)).mpr haccess)

/-! ## Locations that need slots -/

/-- More accesses add slots behind the others. -/
theorem slottedBy_append (before after : List Access) :
    body.slottedBy before <+: body.slottedBy (before ++ after) := by
  rw [slottedBy, slottedBy, List.filter_append, List.map_append, List.eraseDups_append]
  exact List.prefix_append _ _

/-- A location has a slot if one of its accesses is in no register. -/
theorem mem_slottedBy : loc ∈ body.slottedBy accesses ↔
    ∃ access ∈ accesses, body.isUnbound access = true ∧ access.loc = loc := by
  rw [slottedBy, List.mem_eraseDups, List.mem_map]
  simp only [List.mem_filter, and_assoc]

/-- One more access needs a slot for its location, unless that has one or the access
    is bound. -/
theorem slottedBy_snoc : body.slottedBy (accesses ++ [access]) =
    if body.isUnbound access = true ∧ access.loc ∉ body.slottedBy accesses then
      body.slottedBy accesses ++ [access.loc]
    else body.slottedBy accesses := by
  rw [slottedBy, List.filter_append, List.map_append, List.eraseDups_append]
  -- a location is listed once, at its first access without a register
  change body.slottedBy accesses ++ _ = _
  by_cases hunbound : body.isUnbound access = true
  · rw [List.filter_cons_of_pos hunbound, List.filter_nil, List.map_singleton, List.removeAll]
    by_cases hmem : access.loc ∈ body.slottedBy accesses
    · rw [if_neg fun h => h.2 hmem, List.filter_cons_of_neg, List.filter_nil]
      · exact List.append_nil _
      · simpa [slottedBy, and_assoc] using hmem
    · rw [if_pos ⟨hunbound, hmem⟩, List.filter_cons_of_pos, List.filter_nil]
      · rfl
      · simpa [slottedBy, and_assoc] using hmem
  · rw [if_neg fun h => hunbound h.1, List.filter_cons_of_neg hunbound]
    exact List.append_nil _

/-- The accesses of a readable body are those of its statements. -/
theorem mem_allAccesses (h : body.Readable) :
    access ∈ body.allAccesses ↔ ∃ stmt ∈ body.stmts, body.Accesses stmt access := by
  rw [allAccesses, List.mem_flatMap]
  refine exists_congr fun stmt => and_congr_right fun hstmt => ?_
  obtain ⟨accesses, haccesses⟩ := h.accessesOf_ok hstmt
  rw [haccesses]
  exact accessesOf_iff haccesses

/-- **WHAT NEEDS A SLOT**: variables and temporaries with an access that no register
    serves. -/
theorem mem_slotted (h : body.Readable) : loc ∈ body.slotted ↔ body.tracks loc = true ∧
    ∃ stmt ∈ body.stmts, ∃ access, body.Accesses stmt access ∧ access.loc = loc ∧
      body.bindings.get? access = none := by
  rw [slotted, mem_slottedBy]
  simp only [mem_allAccesses h, isUnbound, Bool.and_eq_true, Option.isNone_iff_eq_none]
  constructor
  · rintro ⟨access, ⟨stmt, hstmt, haccess⟩, ⟨htracks, hnone⟩, rfl⟩
    exact ⟨htracks, stmt, hstmt, access, haccess, rfl, hnone⟩
  · rintro ⟨htracks, stmt, hstmt, access, haccess, rfl, hnone⟩
    exact ⟨access, ⟨stmt, hstmt, haccess⟩, ⟨htracks, hnone⟩, rfl⟩

end Body

open Checked (Within)

namespace Frame

variable {body : Body} {frame : Frame} {noted : List Access} {access : Access}

/-! ## Slots one by one -/

/-- What is at a place of a list with one element more. -/
theorem getElem?_concat_eq_some {α : Type} {l : List α} {a b : α} {k : Nat} :
    (l ++ [a])[k]? = some b ↔ l[k]? = some b ∨ k = l.length ∧ a = b := by
  rcases Nat.lt_trichotomy k l.length with hlt | rfl | hgt
  · rw [List.getElem?_append_left hlt]
    exact (or_iff_left fun hlast => Nat.ne_of_lt hlt hlast.1).symm
  · simp
  · rw [List.getElem?_eq_none (by rw [List.length_append]; exact hgt),
      List.getElem?_eq_none (Nat.le_of_lt hgt)]
    exact ⟨nofun, fun h => h.elim nofun fun hlast => absurd hlast.1 (Nat.ne_of_gt hgt)⟩

/-- A frame with slots for the accesses noted so far: each location that needs one has
    the slot below that of the location before it. -/
structure Holding (body : Body) (noted : List Access) (frame : Frame) : Prop where
  size : frame.size = 8 * (body.registerParams + (body.slottedBy noted).length)
  count : frame.slots.size = (body.slottedBy noted).length
  slot : ∀ {loc : Loc} {offset : Int}, frame.slot? loc = some offset ↔
    ∃ k : Nat, (body.slottedBy noted)[k]? = some loc ∧
      offset = -(8 * (body.registerParams + k + 1 : Nat) : Int)

/-- The locations with a slot are those that are noted and in no register. -/
theorem Holding.contains (h : Holding body noted frame) (loc : Loc) :
    frame.slots.contains loc = true ↔ loc ∈ body.slottedBy noted := by
  rw [← Std.ExtTreeMap.mem_iff_contains, Maps.mem_iff, List.mem_iff_getElem?]
  constructor
  · rintro ⟨offset, hoffset⟩
    obtain ⟨k, hk, -⟩ := h.slot.mp hoffset
    exact ⟨k, hk⟩
  · rintro ⟨k, hk⟩
    exact ⟨_, h.slot.mpr ⟨k, hk, rfl⟩⟩

/-- An access is noted, unless there are too many slots. -/
theorem Holding.note (h : Holding body noted frame)
    (hloc : access.loc.index < body.locations.size) :
    Within (2147483647 < 8 * (body.registerParams + (body.slottedBy (noted ++ [access])).length))
      (noteAccess body frame access) (Holding body (noted ++ [access])) := by
  rw [noteAccess, Body.isTracked_eq hloc]
  have hneeds : (body.tracks access.loc && (body.bindings.get? access).isNone &&
      !frame.slots.contains access.loc) = true ↔
      body.isUnbound access = true ∧ access.loc ∉ body.slottedBy noted := by
    rw [Bool.and_eq_true, Bool.not_eq_true', ← Bool.not_eq_true, h.contains, Body.isUnbound]
  have hsnoc := @Body.slottedBy_snoc body access noted
  show Within _ (if _ then _ else _) _
  split
  · next hnew =>
      rw [if_pos (hneeds.mp hnew)] at hsnoc
      have hlength : (body.slottedBy (noted ++ [access])).length =
          (body.slottedBy noted).length + 1 := by rw [hsnoc, List.length_append]; rfl
      have hsize := h.size
      refine (nextSlot_within (fun hout => by omega)).bind ?_
      rintro _ rfl
      have habsent : ¬ frame.slots.contains access.loc = true := by
        rw [h.contains]
        exact (hneeds.mp hnew).2
      refine Within.pure ⟨by show frame.size + 8 = _; omega, ?_, ?_⟩
      · show (frame.slots.insert access.loc _).size = _
        rw [Std.ExtTreeMap.size_insert, if_neg habsent, h.count, hlength]
      intro loc offset
      show (frame.slots.insert access.loc _)[loc]? = some offset ↔ _
      rw [Maps.getElem?_insert, hsnoc]
      split
      · next heq =>
          -- the new slot is that of the location
          have hout := (hneeds.mp hnew).2
          rw [heq] at hout ⊢
          constructor
          · intro hoffset
            cases hoffset
            exact ⟨_, List.getElem?_concat_length, by omega⟩
          · rintro ⟨k, hk, rfl⟩
            rcases getElem?_concat_eq_some.mp hk with hold | ⟨rfl, -⟩
            · exact absurd (List.mem_of_getElem? hold) hout
            · exact congrArg some (by omega)
      · next hne =>
          refine h.slot.trans (exists_congr fun k => and_congr_left' ?_)
          rw [getElem?_concat_eq_some]
          exact (or_iff_left fun hlast => hne hlast.2).symm
  · next hold =>
      rw [if_neg fun hnew => hold (hneeds.mpr hnew)] at hsnoc
      exact Within.pure ⟨hsnoc ▸ h.size, hsnoc ▸ h.count, hsnoc ▸ h.slot⟩

/-- Accesses are noted one after another, unless there are too many slots. -/
theorem Holding.noteAll {rest : List Access} (h : Holding body noted frame)
    (hlocs : ∀ access ∈ rest, access.loc.index < body.locations.size) :
    Within (2147483647 < 8 * (body.registerParams + (body.slottedBy (noted ++ rest)).length))
      (rest.foldlM (noteAccess body) frame) (Holding body (noted ++ rest)) := by
  induction rest generalizing noted frame with
  | nil =>
      rw [List.append_nil]
      exact Within.pure h
  | cons access rest ih =>
      obtain ⟨hloc, hrest⟩ := List.forall_mem_cons.mp hlocs
      have hmore := (@Body.slottedBy_append body (noted ++ [access]) rest).length_le
      rw [List.append_cons, List.foldlM_cons]
      exact Within.bind ((h.note hloc).imp_right (And.imp_right fun hlarge => by omega))
        fun _ hnext => ih hnext hrest

/-- Noting the accesses of each statement is noting all accesses. -/
theorem foldlM_accesses {stmts : List Inst}
    (h : ∀ stmt ∈ stmts, ∃ accesses, accessesOf body stmt = .ok accesses) :
    stmts.foldlM (fun frame stmt => do
        (← accessesOf body stmt).foldlM (noteAccess body) frame) frame =
      (stmts.flatMap fun stmt => (accessesOf body stmt).toOption.getD []).foldlM
        (noteAccess body) frame := by
  induction stmts generalizing frame with
  | nil => rfl
  | cons stmt stmts ih =>
      obtain ⟨⟨accesses, haccesses⟩, hrest⟩ := List.forall_mem_cons.mp h
      rw [List.foldlM_cons, List.flatMap_cons, List.foldlM_append, haccesses]
      exact congrArg (accesses.foldlM (noteAccess body) frame >>= ·) (funext fun _ => ih hrest)

/-- **SLOTS IN ORDER OF FIRST NEED**: if its statements can be read, a body has a frame
    with a slot for each location that needs one, unless there are too many. -/
theorem compute_holding (h : body.Readable) :
    Within (¬ body.SlotsFit) (compute body) (Holding body body.allAccesses) := by
  have hsix : body.registerParams ≤ 6 := Nat.min_le_right _ _
  have hempty : ({} : Frame).size = 0 := rfl
  obtain ⟨start, hstart, hsize, hslots⟩ := @addParams_ok {} body.registerParams (by omega)
  have hholding : Holding body [] start := by
    refine ⟨by rw [hsize, hempty, Nat.zero_add]; rfl, by rw [hslots]; rfl, fun {loc offset} => ?_⟩
    rw [slot?, hslots]
    exact ⟨nofun, fun ⟨k, hk, _⟩ => nomatch hk⟩
  -- every access can be looked up, so only the number of slots can be too large
  have hlocs : ∀ access ∈ body.allAccesses, access.loc.index < body.locations.size := by
    intro access haccess
    obtain ⟨stmt, hstmt, haccesses⟩ := (Body.mem_allAccesses h).mp haccess
    exact (h stmt hstmt).2.2 access haccesses
  have hall := hholding.noteAll hlocs
  rw [List.nil_append] at hall
  rw [compute]
  change Within _ (addParams body.registerParams {} >>= _) _
  rw [Checked.bind_ok hstart, foldlM_accesses fun stmt hstmt => h.accessesOf_ok hstmt]
  exact hall.imp_right (And.imp_right Nat.not_le_of_lt)

/-- A body has a frame if its statements can be read and the slots are not too many, and
    only then. -/
theorem compute_ok_iff : (∃ frame, compute body = .ok frame) ↔ body.Readable ∧ body.SlotsFit := by
  constructor
  · rintro ⟨frame, hframe⟩
    have hreadable : body.Readable := by
      obtain ⟨start, -, hnotes⟩ := Checked.bind_eq_ok hframe
      intro stmt hstmt
      obtain ⟨before, after, hstep⟩ := Checked.foldlM_steps hnotes stmt hstmt
      obtain ⟨accesses, haccesses, hstep⟩ := Checked.bind_eq_ok hstep
      refine ⟨?_, ?_, fun access haccess => ?_⟩
      · obtain ⟨record, hrecord, -⟩ := Checked.bind_eq_ok haccesses
        exact ⟨record, hrecord⟩
      · obtain ⟨_, -, hrest⟩ := Checked.bind_eq_ok haccesses
        obtain ⟨reads, hreads, -⟩ := Checked.bind_eq_ok hrest
        exact ⟨reads, hreads⟩
      · -- noting an access looks its location up
        obtain ⟨before, after, hnote⟩ := Checked.foldlM_steps hstep access
          ((Body.accessesOf_iff haccesses).mpr haccess)
        obtain ⟨isTracked, htracked, -⟩ := Checked.bind_eq_ok hnote
        exact Body.lt_of_isTracked htracked
    refine ⟨hreadable, ?_⟩
    rcases compute_holding hreadable with ⟨frame', hframe', hholding⟩ | ⟨herror, -⟩
    · have hfits := (compute_laid hframe').size
      rwa [hholding.size] at hfits
    · cases hframe.symm.trans herror
  · rintro ⟨hreadable, hfits⟩
    rcases compute_holding hreadable with ⟨frame, hframe, -⟩ | ⟨-, hlarge⟩
    · exact ⟨frame, hframe⟩
    · exact absurd hfits hlarge

/-! ## Sizes and arguments -/

/-- A number within 32 bits fits. -/
theorem fit32_ok {n : Int} (hlow : -2147483648 ≤ n) (hhigh : n ≤ 2147483647) : fit32 n = .ok n :=
  if_pos ⟨hlow, hhigh⟩

/-- What is taken off the stack pointer, if all sums fit 32 bits. -/
theorem allocationSize_eq {pushes : Nat} (h : frame.size + 8 * pushes + 15 ≤ 2147483647) :
    frame.allocationSize pushes =
      .ok ((frame.size + 8 * pushes + 15 : Int) / 16 * 16 - 8 * pushes) := by
  have hcount : Int.bmod pushes 4294967296 = pushes := Int.bmod_eq_of_le (by omega) (by omega)
  have hpushed : (pushes * slotSize : Int) = 8 * pushes := by simp only [slotSize]; omega
  have hfits : fit32 (8 * pushes : Int) = .ok (8 * pushes : Int) := fit32_ok (by omega) (by omega)
  have hused : fit32 (frame.size + 8 * pushes : Int) = .ok (frame.size + 8 * pushes : Int) :=
    fit32_ok (by omega) (by omega)
  have hrounded : fit32 (frame.size + 8 * pushes + 15 : Int) =
      .ok (frame.size + 8 * pushes + 15 : Int) := fit32_ok (by omega) (by omega)
  rw [allocationSize, hcount, hpushed, Checked.bind_ok hfits, Checked.bind_ok hused,
    Checked.bind_ok hrounded]
  exact fit32_ok (by omega) (by omega)

/-- Where incoming arguments lie: the first six in slots, and the others above the
    return address. -/
def argumentOffset (index : Nat) : Int :=
  if index < 6 then -(8 * (index + 1)) else 16 + 8 * (index - 6 : Nat)

/-- No two arguments lie at the same place. -/
theorem argumentOffset_injective {i j : Nat} (h : argumentOffset i = argumentOffset j) : i = j := by
  rw [argumentOffset, argumentOffset] at h
  split at h <;> split at h <;> omega

/-- Every argument lies where it should, if that is within 32 bits. -/
theorem param?_eq (h : frame.Laid body.registerParams) {index : Nat}
    (hindex : index < body.params.length) (hfits : argumentOffset index ≤ 2147483647) :
    frame.param? index = .ok (some (argumentOffset index)) := by
  have hcount : body.registerParams = Nat.min body.params.length 6 := rfl
  rw [argumentOffset] at hfits ⊢
  by_cases hlt : index < 6
  · rw [if_pos hlt]
    exact h.param?_register (by rw [hcount]; exact Nat.lt_min.mpr ⟨hindex, hlt⟩)
  · rw [if_neg hlt] at hfits ⊢
    have hnone : frame.params[index]? = none := by
      rw [List.getElem?_eq_none_iff, h.params, List.length_map, List.length_range, hcount]
      exact Nat.le_trans (Nat.min_le_right _ _) (Nat.le_of_not_lt hlt)
    -- the position of an argument is small, so it is the same as a number of 32 bits
    have hposition : Int.bmod ((index - 6 : Nat) : Int) 4294967296 = (index - 6 : Nat) :=
      Int.bmod_eq_of_le (by omega) (by omega)
    have hlong : Register.arguments.length ≤ index := Nat.le_of_not_lt hlt
    have habove : fit32 ((index - 6 : Nat) * slotSize : Int) =
        .ok (8 * (index - 6 : Nat) : Int) := by
      rw [show ((index - 6 : Nat) * slotSize : Int) = 8 * (index - 6 : Nat) from Int.mul_comm _ _]
      exact fit32_ok (by omega) (by omega)
    have htotal : fit32 (2 * slotSize + 8 * (index - 6 : Nat) : Int) =
        .ok (16 + 8 * (index - 6 : Nat) : Int) := fit32_ok (by omega) hfits
    rw [param?, hnone]
    show (if _ then _ else _) = _
    rw [if_pos hlong, show Register.arguments.length = 6 from rfl, hposition]
    dsimp only
    rw [Checked.bind_ok habove, Checked.bind_ok htotal]
    rfl

/-! ## Frames -/

/-- All slots of a frame: those of arguments, and those of locations. -/
def offsets (frame : Frame) : List Int := frame.params ++ frame.slots.toList.map Prod.snd

/-- The offsets of a frame are those of its parameters and of its slots. -/
theorem mem_offsets (h : frame.Laid body.registerParams) {offset : Int} :
    offset ∈ frame.offsets ↔
      (∃ index < body.registerParams, -(8 * (index + 1) : Int) = offset) ∨
        ∃ loc, frame.slot? loc = some offset := by
  rw [offsets, List.mem_append, h.params, List.mem_map, List.mem_map]
  simp only [List.mem_range, Prod.exists, exists_eq_right,
    Std.ExtTreeMap.mem_toList_iff_getElem?_eq_some]
  rfl

/-- Slots are in different places. -/
theorem Laid.nodup (h : frame.Laid body.registerParams) : frame.offsets.Nodup := by
  rw [offsets, List.nodup_append]
  refine ⟨?_, ?_, ?_⟩
  · rw [h.params]
    exact List.Pairwise.map _ (fun i j hne heq => hne (by omega)) List.nodup_range
  · refine List.pairwise_map.mpr (Std.ExtTreeMap.distinct_keys_toList.imp_of_mem ?_)
    rintro ⟨a, offset⟩ ⟨b, _⟩ ha hb hne rfl
    -- one offset, so one location
    have hloc := h.apart (Std.ExtTreeMap.mem_toList_iff_getElem?_eq_some.mp ha)
      (Std.ExtTreeMap.mem_toList_iff_getElem?_eq_some.mp hb)
    exact hne (Std.LawfulEqOrd.compare_eq_iff_eq.mpr hloc)
  · intro offset hparam other hslot
    rw [h.params] at hparam
    obtain ⟨index, hindex, rfl⟩ := List.mem_map.mp hparam
    obtain ⟨⟨loc, offset⟩, hloc, rfl⟩ := List.mem_map.mp hslot
    have hbelow := h.slots (Std.ExtTreeMap.mem_toList_iff_getElem?_eq_some.mp hloc)
    have hlt := List.mem_range.mp hindex
    dsimp only
    omega

/-- What is true of the frame of a body. -/
structure Apart (body : Body) (frame : Frame) : Prop where
  /-- A variable or temporary has a slot if a statement saves or reads it through an
      access that no register serves, and nothing else has one. -/
  slotted : ∀ loc, (∃ offset, frame.slot? loc = some offset) ↔ body.tracks loc = true ∧
    ∃ stmt ∈ body.stmts, ∃ access, body.Accesses stmt access ∧ access.loc = loc ∧
      body.bindings.get? access = none
  /-- There is nothing in the frame but slots. -/
  size : frame.size = 8 * frame.offsets.length
  /-- No two slots are in one place. -/
  nodup : frame.offsets.Nodup
  /-- Slots are whole words of the frame. -/
  within : ∀ offset ∈ frame.offsets, 8 ∣ offset ∧ -(frame.size : Int) ≤ offset ∧ offset ≤ -8
  /-- Arguments lie in slots of their own or above the return address. -/
  params : ∀ index < body.params.length, argumentOffset index ≤ 2147483647 →
    frame.param? index = .ok (some (argumentOffset index)) ∧
      (index < 6 → argumentOffset index ∈ frame.params)
  /-- No two arguments are in one place. -/
  distinct : ∀ i < body.params.length, ∀ j < body.params.length,
    argumentOffset i ≤ 2147483647 → argumentOffset j ≤ 2147483647 →
      frame.param? i = frame.param? j → i = j
  /-- What is taken off the stack pointer covers the slots, and the stack is aligned
      once the words that are pushed then are on it. -/
  allocation : ∀ pushes : Nat, frame.size + 8 * pushes + 15 ≤ 2147483647 →
    ∃ total, frame.allocationSize pushes = .ok total ∧ frame.size ≤ total ∧
      16 ∣ total + 8 * pushes

/-- **SLOTS NEVER ALIAS**: the bodies with statements that can be read and slots that
    are not too many have frames, and in a frame everything is apart. -/
theorem compute_apart (body : Body) :
    ((∃ frame, compute body = .ok frame) ↔ body.Readable ∧ body.SlotsFit) ∧
      ∀ frame, compute body = .ok frame → Apart body frame := by
  refine ⟨compute_ok_iff, fun frame hframe => ?_⟩
  have hlaid : frame.Laid body.registerParams := compute_laid hframe
  have hreadable := (compute_ok_iff.mp ⟨frame, hframe⟩).1
  obtain ⟨frame', hframe', hholding⟩ | ⟨herror, -⟩ := compute_holding hreadable
  · cases hframe.symm.trans hframe'
    have hparams : ∀ index < body.params.length, argumentOffset index ≤ 2147483647 →
        frame.param? index = .ok (some (argumentOffset index)) :=
      fun index => param?_eq hlaid
    refine {
      slotted := fun loc => ?_
      size := ?_
      nodup := hlaid.nodup
      within := fun offset hoffset => ?_
      params := fun index hindex hfits => ⟨hparams index hindex hfits, fun hlt => ?_⟩
      distinct := fun i hi j hj hfitsi hfitsj hsame => ?_
      allocation := fun pushes hpushes => ⟨_, allocationSize_eq hpushes, by omega, by omega⟩ }
    · rw [← Body.mem_slotted hreadable, Body.slotted, ← hholding.contains, slot?,
        ← Std.ExtTreeMap.mem_iff_contains, Maps.mem_iff]
    · rw [offsets, List.length_append, hlaid.params, List.length_map, List.length_range,
        List.length_map, Std.ExtTreeMap.length_toList, hholding.count, hholding.size]
    · have hleast := hlaid.least
      rcases (mem_offsets hlaid).mp hoffset with ⟨index, hindex, rfl⟩ | ⟨loc, hloc⟩
      -- slots of arguments and of locations lie within the size
      · omega
      · obtain ⟨k, hk, rfl⟩ := hholding.slot.mp hloc
        have hlt := (List.getElem?_eq_some_iff.mp hk).1
        have hsize := hholding.size
        omega
    · rw [hlaid.params, argumentOffset, if_pos hlt]
      exact List.mem_map.mpr ⟨index, List.mem_range.mpr (Nat.lt_min.mpr ⟨hindex, hlt⟩), rfl⟩
    · rw [hparams i hi hfitsi, hparams j hj hfitsj] at hsame
      exact argumentOffset_injective (Option.some.inj (Except.ok.inj hsame))
  · cases hframe.symm.trans herror

/-- Seven arguments, of which the last comes on the stack, and a variable that is in a
    register from one save to its read, and on the stack from the other. -/
def keptTwice : Body where
  name := ⟨0⟩
  params := [⟨0⟩, ⟨1⟩, ⟨2⟩, ⟨3⟩, ⟨4⟩, ⟨5⟩, ⟨6⟩]
  records := #[.param 6, .save ⟨0⟩ ⟨6⟩, .load ⟨6⟩, .save ⟨2⟩ ⟨7⟩, .load ⟨7⟩, .load ⟨0⟩,
    .binary .add ⟨4⟩ ⟨5⟩, .save ⟨6⟩ ⟨7⟩, .load ⟨7⟩, .ret (some ⟨8⟩)]
  locations := #[.localVar ⟨1⟩, .localVar ⟨2⟩, .localVar ⟨3⟩, .localVar ⟨4⟩, .localVar ⟨5⟩,
    .localVar ⟨6⟩, .localVar ⟨7⟩, .localVar ⟨8⟩]
  blocks := #[⟨none, [⟨1⟩, ⟨3⟩, ⟨7⟩, ⟨9⟩]⟩]
  bindings := ((({} : Bindings).bind ⟨⟨5⟩, ⟨0⟩⟩ .rbx).bind ⟨⟨3⟩, ⟨7⟩⟩ .r12).bind ⟨⟨4⟩, ⟨7⟩⟩ .r12

/-- The frame of a body that keeps two words has all eight of its places apart. -/
theorem keptTwice_apart : ∃ frame, compute keptTwice = .ok frame ∧
    frame.offsets = [-8, -16, -24, -32, -40, -48, -56, -64] ∧ Apart keptTwice frame := by
  obtain ⟨frame, hframe, htest⟩ := @Checked.exists_of_test _ _ (compute keptTwice)
    (fun frame => frame.offsets = [-8, -16, -24, -32, -40, -48, -56, -64]) (by decide +kernel)
  exact ⟨frame, hframe, of_decide_eq_true htest, (compute_apart keptTwice).2 frame hframe⟩

end Frame

end DecafBackend
