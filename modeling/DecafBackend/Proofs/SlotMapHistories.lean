import DecafBackend.Proofs.SlotMaps

/-! # Slot maps after any operations

    Whatever is put into a slot map, changed and taken out again, in any order, the map
    holds what the operations say and counts it.  Equality compares slots, not only
    values: two maps are equal exactly if their keys have the same values and their
    operations made room equally far, so a key that came and went can tell them apart.

    * `History`, `History.value?`, `History.reach` — operations, and what they say
    * `Fits`, `History.fits` — the invariant, kept by each operation
    * `History.map_ok` — operations that lead to a map
    * `Exact`, `Fits.eq_iff` — what fitting guarantees -/

namespace DecafBackend

/-! ## Numbered lists -/

section

variable {β γ : Type} {l : List β} {f : β × Nat → Option γ} {p : β → Bool}

/-- What is kept of a list with positions. -/
theorem mem_filterMap_zipIdx {c : γ} :
    c ∈ l.zipIdx.filterMap f ↔ ∃ i b, l[i]? = some b ∧ f (b, i) = some c := by
  rw [List.mem_filterMap]
  constructor
  · rintro ⟨⟨b, i⟩, hmem, hc⟩
    exact ⟨i, b, List.mem_zipIdx_iff_getElem?.mp hmem, hc⟩
  · rintro ⟨i, b, hi, hc⟩
    exact ⟨(b, i), List.mem_zipIdx_iff_getElem?.mpr hi, hc⟩

/-- Positions go up. -/
theorem pairwise_zipIdx (l : List β) : l.zipIdx.Pairwise fun a b => a.2 < b.2 := by
  refine List.pairwise_map.mp ?_
  rw [List.zipIdx_map_snd]
  exact List.pairwise_lt_range'

/-- As many are kept as the test counts. -/
theorem length_filterMap_zipIdx (h : ∀ b i, (f (b, i)).isSome = p b) :
    (l.zipIdx.filterMap f).length = l.countP p := by
  have hfst : (fun item : β × Nat => (f item).isSome) = p ∘ Prod.fst := funext fun ⟨b, i⟩ => h b i
  rw [List.length_filterMap_eq_countP, hfst, ← List.countP_map, List.zipIdx_map_fst]

/-- What a write does to a count. -/
theorem countP_set_add {i : Nat} {old : β} (h : l[i]? = some old) (new : β) :
    (l.set i new).countP p + (if p old then 1 else 0) = l.countP p + if p new then 1 else 0 := by
  induction l generalizing i with
  | nil => cases h
  | cons b l ih =>
      cases i with
      | zero =>
          cases h
          rw [List.set_cons_zero, List.countP_cons, List.countP_cons]
          omega
      | succ i =>
          rw [List.set_cons_succ, List.countP_cons, List.countP_cons]
          have := ih h
          omega

/-- Padding that is not counted. -/
theorem countP_padded (xs : Array β) (more : Nat) {pad : β} (h : p pad = false) :
    (xs ++ Array.replicate more pad).toList.countP p = xs.toList.countP p := by
  rw [Array.toList_append, List.countP_append, Array.toList_replicate, List.countP_replicate,
    h]
  rfl

end

/-! ## Slot maps -/

namespace SlotMap

variable {kind : KeyKind} {α : Type}

/-- How a slot map came about. -/
inductive History (kind : KeyKind) (α : Type)
  /-- A map without slots. -/
  | new
  /-- A map with room for the first keys. -/
  | withSize (size : Nat)
  /-- Every one of the first keys was given a value. -/
  | tabulate (size : Nat) (f : Key kind → α)
  /-- A key was given a value. -/
  | insert (key : Key kind) (value : α) (before : History kind α)
  /-- The value of a key was taken away. -/
  | remove (key : Key kind) (before : History kind α)
  /-- Every value was taken away. -/
  | clear (before : History kind α)
  /-- A key was asked for its value, which it got first if it had none. -/
  | getOrInsert (key : Key kind) (default : α) (before : History kind α)
  /-- The value of a key that has one was changed. -/
  | modify (key : Key kind) (f : α → α) (before : History kind α)
  /-- Every value was changed. -/
  | mapValues (f : Key kind → α → α) (before : History kind α)

namespace History

/-- The map that operations lead to. -/
def map : History kind α → Checked (SlotMap kind α)
  | new => return {}
  | withSize size => return .withSize size
  | tabulate size f => return .tabulate size f
  | insert key value before => do return (← (← before.map).insert key value).2
  | remove key before => do return (← (← before.map).remove key).2
  | clear before => return (← before.map).clear
  | getOrInsert key default before => do return (← (← before.map).getOrInsert key default).2
  | modify key f before => do (← before.map).modify key fun value => return f value
  | mapValues f before => do (← before.map).mapValues fun key value => return f key value

/-- The value that operations leave a key. -/
def value? : History kind α → Key kind → Option α
  | new, _ | withSize _, _ | clear _, _ => none
  | tabulate size f, key => if key.index < size then some (f key) else none
  | insert written value before, key => if key = written then some value else before.value? key
  | remove removed before, key => if key = removed then none else before.value? key
  | getOrInsert asked default before, key =>
    if key = asked then some ((before.value? key).getD default) else before.value? key
  | modify changed f before, key =>
    if key = changed then (before.value? key).map f else before.value? key
  | mapValues f before, key => (before.value? key).map (f key)

/-- How far operations made room: for keys that it was asked for, and up to every key
    that got a value. -/
def reach : History kind α → Nat
  | new => 0
  | withSize size | tabulate size _ => size
  | insert key _ before | getOrInsert key _ before => max before.reach (key.index + 1)
  | remove _ before | clear before | modify _ _ before | mapValues _ before => before.reach

/-- Operations change values in place only where there are values. -/
def Present : History kind α → Prop
  | new | withSize _ | tabulate _ _ => True
  | insert _ _ before | remove _ before | clear before | getOrInsert _ _ before
  | mapValues _ before => before.Present
  | modify key _ before => before.Present ∧ (before.value? key).isSome = true

section

-- What the last operation says of a key, so that no proof unfolds the whole history.

variable {key other : Key kind} {size : Nat} {value default : α} {before : History kind α}

@[simp] theorem value?_tabulate {f : Key kind → α} :
    (tabulate size f).value? key = if key.index < size then some (f key) else none := rfl

@[simp] theorem value?_insert :
    (insert key value before).value? other =
      if other = key then some value else before.value? other := rfl

@[simp] theorem value?_remove :
    (remove key before).value? other = if other = key then none else before.value? other := rfl

@[simp] theorem value?_getOrInsert :
    (getOrInsert key default before).value? other =
      if other = key then some ((before.value? other).getD default) else before.value? other := rfl

@[simp] theorem value?_modify {f : α → α} :
    (modify key f before).value? other =
      if other = key then (before.value? other).map f else before.value? other := rfl

@[simp] theorem value?_mapValues {f : Key kind → α → α} :
    (mapValues f before).value? key = (before.value? key).map (f key) := rfl

end

end History

/-- A map holds what operations say, has as many slots as they made room for, and
    counts the filled ones. -/
structure Fits (history : History kind α) (map : SlotMap kind α) : Prop where
  value : ∀ key, map.get? key = history.value? key
  size : map.slots.size = history.reach
  count : map.count = map.slots.toList.countP Option.isSome

variable {map after : SlotMap kind α} {key : Key kind} {history : History kind α}

/-! ### Slots -/

/-- Empty slots do not count. -/
theorem countP_grow (slots : Array (Option α)) (index : Nat) :
    (grow slots index).toList.countP Option.isSome = slots.toList.countP Option.isSome :=
  countP_padded slots _ rfl

/-- A slot holds what its key has. -/
theorem getElem?_slots {slots : Array (Option α)} (hlt : key.index < slots.size)
    (hsame : slots[key.index]?.join = map.get? key) :
    slots.toList[key.index]? = some (map.get? key) := by
  rw [Array.getElem?_toList, Array.getElem?_eq_getElem hlt]
  rw [Array.getElem?_eq_getElem hlt] at hsame
  exact congrArg some hsame

/-- What a write to a slot does to the count. -/
theorem countP_write {slots : Array (Option α)} (hlt : key.index < slots.size)
    (hsame : slots[key.index]?.join = map.get? key) (value : Option α) :
    (slots.setIfInBounds key.index value).toList.countP Option.isSome +
      (if (map.get? key).isSome then 1 else 0) =
        slots.toList.countP Option.isSome + if value.isSome then 1 else 0 := by
  rw [Array.toList_setIfInBounds]
  exact countP_set_add (getElem?_slots hlt hsame) value

/-! ### Operations -/

/-- Every way in which a key is given a value. -/
theorem insert_cases {value : α} {old : Option α} (h : map.insert key value = .ok (old, after)) :
    after.slots = (grow map.slots key.index).setIfInBounds key.index (some value) ∧
      after.count + (if (map.get? key).isSome then 1 else 0) = map.count + 1 := by
  rw [insert] at h
  cases hold : map.get? key with
  | some value =>
      rw [hold] at h
      cases h
      exact ⟨rfl, rfl⟩
  | none =>
      rw [hold] at h
      dsimp only at h
      split at h
      · cases h
        exact ⟨rfl, rfl⟩
      · cases h

/-- A key that has a value can be counted. -/
theorem Fits.count_pos (h : Fits history map) {value : α} (hvalue : map.get? key = some value) :
    map.count ≠ 0 := by
  have hslot := getElem?_slots (lt_size hvalue) rfl
  rw [h.count]
  refine Nat.ne_of_gt (List.countP_pos_iff.mpr ⟨_, List.mem_of_getElem? hslot, ?_⟩)
  rw [hvalue]
  rfl

/-- Changing every value always works. -/
theorem mapValues_eq (map : SlotMap kind α) (f : Key kind → α → α) :
    map.mapValues (fun key value => return f key value) =
      .ok ⟨(map.slots.toList.zipIdx.map fun item => item.1.map (f ⟨item.2⟩)).toArray,
        map.count⟩ := by
  have hslots := Checked.mapM_eq (l := map.slots.toList.zipIdx)
    (f := fun (item : Option α × Nat) =>
      item.1.mapM fun value => (return f ⟨item.2⟩ value : Checked α))
    (g := fun item => item.1.map (f ⟨item.2⟩)) fun item _ => by cases item.1 <;> rfl
  rw [mapValues, Checked.bind_ok hslots]
  rfl

namespace Fits

theorem new : Fits (.new : History kind α) {} := ⟨fun _ => rfl, rfl, rfl⟩

/-- A map of some size is empty. -/
theorem withSize (size : Nat) : Fits (.withSize size : History kind α) (.withSize size) := by
  refine ⟨fun key => ?_, Array.size_replicate, ?_⟩
  · rw [SlotMap.withSize, get?, Array.getElem?_replicate]
    split <;> rfl
  · rw [SlotMap.withSize, Array.toList_replicate, List.countP_replicate]
    rfl

/-- A tabulated map has a value at every index. -/
theorem tabulate (size : Nat) (f : Key kind → α) :
    Fits (.tabulate size f) (.tabulate size f) := by
  refine ⟨fun key => ?_, ?_, ?_⟩
  · rw [SlotMap.tabulate, get?, Array.getElem?_map, Array.getElem?_range, History.value?_tabulate]
    split <;> rfl
  · rw [SlotMap.tabulate, Array.size_map, Array.size_range]
    rfl
  · rw [SlotMap.tabulate, Array.toList_map, List.countP_map, Array.toList_range]
    exact ((List.countP_eq_length.mpr fun _ _ => rfl).trans List.length_range).symm

/-- Inserting sets one value. -/
theorem insert (h : Fits history map) {value : α} {old : Option α}
    (hafter : map.insert key value = .ok (old, after)) :
    Fits (.insert key value history) after := by
  obtain ⟨hslots, hcount⟩ := insert_cases hafter
  have hlt := lt_size_grow map.slots key.index
  have hsame := join_grow map.slots key.index
  have hupdates := updates_set hlt hsame (some value) after.count
  have hwrite := countP_write hlt (hsame key.index) (some value)
  rw [← hslots] at hupdates hwrite
  rw [countP_grow, ← h.count] at hwrite
  refine ⟨fun other => ?_, ?_, ?_⟩
  · rw [History.value?_insert, ← h.value]
    exact hupdates other
  · rw [hslots, Array.size_setIfInBounds, size_grow, h.size]
    rfl
  · exact Nat.add_right_cancel (hcount.trans hwrite.symm)

/-- A value that is replaced, or taken away, where it is. -/
theorem write (h : Fits history map) {old : α} (hold : map.get? key = some old)
    {changed : History kind α} {value : Option α} {count : Nat}
    (hvalue : ∀ other, changed.value? other = if other = key then value else history.value? other)
    (hreach : changed.reach = history.reach)
    (hcount : count + 1 = map.count + if value.isSome then 1 else 0) :
    Fits changed ⟨map.slots.setIfInBounds key.index value, count⟩ := by
  have hlt := lt_size hold
  have hwrite := countP_write hlt rfl value
  rw [hold, ← h.count, ← hcount] at hwrite
  refine ⟨fun other => ?_, ?_, ?_⟩
  · rw [hvalue, ← h.value]
    exact updates_set hlt (fun _ => rfl) value count other
  · rw [hreach, ← h.size]
    exact Array.size_setIfInBounds
  · exact (Nat.add_right_cancel hwrite).symm

/-- Removing takes one value out. -/
theorem remove (h : Fits history map) {old : Option α}
    (hafter : map.remove key = .ok (old, after)) : Fits (.remove key history) after := by
  rw [SlotMap.remove] at hafter
  cases hold : map.get? key with
  | none =>
      rw [hold] at hafter
      cases hafter
      refine ⟨fun other => ?_, h.size, h.count⟩
      rw [History.value?_remove, ← h.value]
      split
      · next heq => rw [heq, hold]
      · rfl
  | some value =>
      have hpos := h.count_pos hold
      rw [hold] at hafter
      dsimp only at hafter
      rw [if_neg hpos] at hafter
      cases hafter
      exact h.write hold (fun _ => rfl) rfl (Nat.sub_add_cancel (Nat.pos_of_ne_zero hpos))

/-- Clearing takes all values out. -/
theorem clear (h : Fits history map) : Fits (.clear history) map.clear := by
  refine ⟨fun other => ?_, ?_, ?_⟩
  · rw [SlotMap.clear, get?, Array.getElem?_map]
    cases map.slots[other.index]? <;> rfl
  · rw [SlotMap.clear, Array.size_map]
    exact h.size
  · rw [SlotMap.clear, Array.toList_map, List.countP_map]
    exact (List.countP_eq_zero.mpr fun _ _ => Bool.false_ne_true).symm

/-- A value that is missing is inserted. -/
theorem getOrInsert (h : Fits history map) {default value : α}
    (hafter : map.getOrInsert key default = .ok (value, after)) :
    Fits (.getOrInsert key default history) after := by
  rw [SlotMap.getOrInsert] at hafter
  cases hold : map.get? key with
  | some old =>
      rw [hold] at hafter
      cases hafter
      refine ⟨fun other => ?_, ?_, h.count⟩
      · rw [History.value?_getOrInsert]
        split
        · next heq => rw [heq, ← h.value, hold]; rfl
        · exact h.value other
      · rw [History.reach, ← h.size]
        exact (Nat.max_eq_left (lt_size hold)).symm
  | none =>
      rw [hold] at hafter
      obtain ⟨⟨old, inserted⟩, hinsert, hafter⟩ := Checked.bind_eq_ok hafter
      cases hafter
      obtain ⟨hvalue, hsize, hcount⟩ := h.insert hinsert
      refine ⟨fun other => ?_, hsize, hcount⟩
      rw [hvalue, History.value?_insert, History.value?_getOrInsert]
      split
      · next heq => rw [heq, ← h.value, hold]; rfl
      · rfl

/-- Modifying changes one value. -/
theorem modify (h : Fits history map) {f : α → α}
    (hafter : map.modify key (fun value => return f value) = .ok after) :
    Fits (.modify key f history) after := by
  obtain ⟨old, hget, hafter⟩ := Checked.bind_eq_ok hafter
  cases hafter
  have hold : map.get? key = some old := by
    rw [get] at hget
    cases hvalue : map.get? key with
    | some value =>
        rw [hvalue] at hget
        cases hget
        rfl
    | none =>
        rw [hvalue] at hget
        cases hget
  refine h.write hold (fun other => ?_) rfl rfl
  rw [History.value?_modify]
  split
  · next heq => rw [heq, ← h.value, hold]; rfl
  · rfl

/-- Mapping changes all values. -/
theorem mapValues (h : Fits history map) {f : Key kind → α → α}
    (hafter : map.mapValues (fun key value => return f key value) = .ok after) :
    Fits (.mapValues f history) after := by
  cases (mapValues_eq map f).symm.trans hafter
  refine ⟨fun other => ?_, ?_, ?_⟩
  · rw [History.value?_mapValues, ← h.value, get?, get?, List.getElem?_toArray, List.getElem?_map,
      List.getElem?_zipIdx, Array.getElem?_toList, Nat.zero_add]
    cases map.slots[other.index]? <;> rfl
  · rw [List.size_toArray, List.length_map, List.length_zipIdx, Array.length_toList]
    exact h.size
  · have hsome : (fun slot : Option α => slot.isSome) ∘
        (fun item : Option α × Nat => item.1.map (f ⟨item.2⟩)) = Option.isSome ∘ Prod.fst :=
      funext fun item => Option.isSome_map
    rw [h.count, List.countP_map, hsome, ← List.countP_map, List.zipIdx_map_fst]

/-- A key can be given a value if there is room up to it. -/
theorem insert_ok (h : Fits history map) {value : α}
    (hreach : (History.insert key value history).reach < wordLimit) :
    ∃ result, map.insert key value = .ok result := by
  rw [SlotMap.insert]
  cases hold : map.get? key with
  | some old => exact ⟨_, rfl⟩
  | none =>
      -- With the key, there are still no more filled slots than slots up to it.
      have hwrite := countP_write (lt_size_grow map.slots key.index)
        (join_grow map.slots key.index key.index) (some value)
      rw [countP_grow, ← h.count, hold] at hwrite
      have hle : map.count + 1 ≤ max map.slots.size (key.index + 1) :=
        calc map.count + 1
          _ = _ := hwrite.symm
          _ ≤ _ := List.countP_le_length
          _ = _ := by rw [Array.length_toList, Array.size_setIfInBounds, size_grow]
      rw [h.size] at hle
      exact ⟨_, if_pos (Nat.lt_of_le_of_lt hle hreach)⟩

/-- Removing never fails. -/
theorem remove_ok (h : Fits history map) (key : Key kind) :
    ∃ result, map.remove key = .ok result := by
  rw [SlotMap.remove]
  cases hold : map.get? key with
  | none => exact ⟨_, rfl⟩
  | some old => exact ⟨_, if_neg (h.count_pos hold)⟩

/-- A missing value can be inserted while the slots can be counted. -/
theorem getOrInsert_ok (h : Fits history map) {default : α}
    (hreach : (History.getOrInsert key default history).reach < wordLimit) :
    ∃ result, map.getOrInsert key default = .ok result := by
  rw [SlotMap.getOrInsert]
  cases map.get? key with
  | some old => exact ⟨_, rfl⟩
  | none =>
      have hinsert : (History.insert key default history).reach < wordLimit := hreach
      obtain ⟨result, hresult⟩ := h.insert_ok hinsert
      exact ⟨_, Checked.bind_ok hresult⟩

/-- A value that is there can be modified. -/
theorem modify_ok (h : Fits history map) (f : α → α)
    (hpresent : (history.value? key).isSome = true) :
    ∃ after, map.modify key (fun value => return f value) = .ok after := by
  obtain ⟨old, hold⟩ := Option.isSome_iff_exists.mp hpresent
  rw [← h.value] at hold
  exact ⟨_, Checked.bind_ok (get_eq hold)⟩

end Fits

/-- **SLOT MAPS FIT** what led to them. -/
theorem History.fits (history : History kind α) (h : history.map = .ok map) :
    Fits history map := by
  -- by induction on the history, one lemma for each operation
  induction history generalizing map with
  | new =>
      cases h
      exact .new
  | withSize size =>
      cases h
      exact .withSize size
  | tabulate size f =>
      cases h
      exact .tabulate size f
  | insert key value before ih =>
      obtain ⟨old, hold, h⟩ := Checked.bind_eq_ok h
      obtain ⟨⟨_, after⟩, hafter, h⟩ := Checked.bind_eq_ok h
      cases h
      exact (ih hold).insert hafter
  | remove key before ih =>
      obtain ⟨old, hold, h⟩ := Checked.bind_eq_ok h
      obtain ⟨⟨_, after⟩, hafter, h⟩ := Checked.bind_eq_ok h
      cases h
      exact (ih hold).remove hafter
  | clear before ih =>
      obtain ⟨old, hold, h⟩ := Checked.bind_eq_ok h
      cases h
      exact (ih hold).clear
  | getOrInsert key default before ih =>
      obtain ⟨old, hold, h⟩ := Checked.bind_eq_ok h
      obtain ⟨⟨_, after⟩, hafter, h⟩ := Checked.bind_eq_ok h
      cases h
      exact (ih hold).getOrInsert hafter
  | modify key f before ih =>
      obtain ⟨old, hold, h⟩ := Checked.bind_eq_ok h
      exact (ih hold).modify h
  | mapValues f before ih =>
      obtain ⟨old, hold, h⟩ := Checked.bind_eq_ok h
      exact (ih hold).mapValues h

/-- Operations that change values only where there are values lead to a map, if
    its slots can be counted. -/
theorem History.map_ok (history : History kind α) (hpresent : history.Present)
    (hreach : history.reach < wordLimit) : ∃ map, history.map = .ok map := by
  induction history with
  | new => exact ⟨_, rfl⟩
  | withSize size => exact ⟨_, rfl⟩
  | tabulate size f => exact ⟨_, rfl⟩
  | insert key value before ih =>
      obtain ⟨old, hold⟩ := ih hpresent (Nat.lt_of_le_of_lt (Nat.le_max_left _ _) hreach)
      obtain ⟨result, hresult⟩ := (before.fits hold).insert_ok hreach
      exact ⟨_, (Checked.bind_ok hold).trans (Checked.bind_ok hresult)⟩
  | remove key before ih =>
      obtain ⟨old, hold⟩ := ih hpresent hreach
      obtain ⟨result, hresult⟩ := (before.fits hold).remove_ok key
      exact ⟨_, (Checked.bind_ok hold).trans (Checked.bind_ok hresult)⟩
  | clear before ih =>
      obtain ⟨old, hold⟩ := ih hpresent hreach
      exact ⟨_, Checked.bind_ok hold⟩
  | getOrInsert key default before ih =>
      obtain ⟨old, hold⟩ := ih hpresent (Nat.lt_of_le_of_lt (Nat.le_max_left _ _) hreach)
      obtain ⟨result, hresult⟩ := (before.fits hold).getOrInsert_ok hreach
      exact ⟨_, (Checked.bind_ok hold).trans (Checked.bind_ok hresult)⟩
  | modify key f before ih =>
      obtain ⟨old, hold⟩ := ih hpresent.1 hreach
      obtain ⟨after, hafter⟩ := (before.fits hold).modify_ok f hpresent.2
      exact ⟨after, (Checked.bind_ok hold).trans hafter⟩
  | mapValues f before ih =>
      obtain ⟨old, hold⟩ := ih hpresent hreach
      exact ⟨_, (Checked.bind_ok hold).trans (mapValues_eq old f)⟩

/-! ### What fitting guarantees -/

/-- The entries of a map are its values. -/
theorem mem_entries {value : α} : (key, value) ∈ map.entries ↔ map.get? key = some value := by
  rw [entries, mem_filterMap_zipIdx]
  constructor
  · rintro ⟨index, slot, hslot, hvalue⟩
    obtain ⟨found, rfl, hfound⟩ := Option.map_eq_some_iff.mp hvalue
    cases hfound
    rw [Array.getElem?_toList] at hslot
    exact Option.join_eq_some_iff.mpr hslot
  · intro hvalue
    refine ⟨key.index, some value, ?_, rfl⟩
    rw [Array.getElem?_toList]
    exact Option.join_eq_some_iff.mp hvalue

/-- The keys of a map go up. -/
theorem sorted_keys (map : SlotMap kind α) : map.keys.Pairwise (· < ·) := by
  refine List.pairwise_map.mpr ((pairwise_zipIdx _).filterMap _ ?_)
  rintro ⟨slot, index⟩ ⟨slot', index'⟩ hlt entry hentry entry' hentry'
  obtain ⟨value, -, rfl⟩ := Option.map_eq_some_iff.mp hentry
  obtain ⟨value', -, rfl⟩ := Option.map_eq_some_iff.mp hentry'
  exact hlt

/-- A map has as many keys as filled slots. -/
theorem length_keys (map : SlotMap kind α) :
    map.keys.length = map.slots.toList.countP Option.isSome := by
  rw [keys, List.length_map]
  exact length_filterMap_zipIdx fun slot index => Option.isSome_map

/-- What a slot map guarantees after operations. -/
structure Exact (history : History kind α) (map : SlotMap kind α) : Prop where
  /-- A key has the value that the operations left it. -/
  value : ∀ key, map.get? key = history.value? key
  /-- Exactly the keys with values are listed, with their values. -/
  entries : ∀ key value, (key, value) ∈ map.entries ↔ history.value? key = some value
  /-- They are listed in order, each of them once. -/
  sorted : map.keys.Pairwise (· < ·)
  /-- The count is their number. -/
  count : map.count = map.keys.length
  /-- There are as many slots as the operations made room for. -/
  size : map.slots.size = history.reach

/-- **WHAT FITS IS EXACT** in every lookup and iteration. -/
theorem Fits.exact (h : Fits history map) : Exact history map where
  value := h.value
  entries key value := by rw [mem_entries, h.value]
  sorted := map.sorted_keys
  count := h.count.trans map.length_keys.symm
  size := h.size

/-- Slot maps are equal exactly if their keys have the same values and their operations
    made room equally far. -/
theorem Fits.eq_iff (h : Fits history map) {other : History kind α} {map' : SlotMap kind α}
    (h' : Fits other map') : map = map' ↔
      (∀ key, history.value? key = other.value? key) ∧ history.reach = other.reach := by
  constructor
  · rintro rfl
    exact ⟨fun key => (h.value key).symm.trans (h'.value key), h.size.symm.trans h'.size⟩
  · rintro ⟨hvalue, hreach⟩
    have hsize : map.slots.size = map'.slots.size := by rw [h.size, h'.size, hreach]
    have hslots : map.slots = map'.slots := by
      refine Array.ext hsize fun index hindex hindex' => ?_
      have hsame : map.get? ⟨index⟩ = map'.get? ⟨index⟩ := by rw [h.value, h'.value, hvalue]
      rwa [get?, get?, Array.getElem?_eq_getElem hindex, Array.getElem?_eq_getElem hindex']
        at hsame
    have hcount : map.count = map'.count := by rw [h.count, h'.count, hslots]
    cases map
    cases map'
    cases hslots
    cases hcount
    rfl

end SlotMap

end DecafBackend
