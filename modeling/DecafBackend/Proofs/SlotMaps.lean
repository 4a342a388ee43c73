import DecafBackend.Proofs.Checked
import DecafBackend.SlotMap

/-! # What slot maps hold

    A slot map is read through `get?`.  Each change is at one key: it says what the key
    holds afterwards, all other keys hold what they held, and the count goes up or down
    with the filled slots.

    * `Key.Fits` — the keys that can be stored
    * `size_padded`, `getD_padded` — arrays that are made longer
    * `Updates` — a change at one key
    * `insert_new`, `modify_at`, `remove_at` — the changes
    * `length_le_slots` — the slots bound the number of keys -/

namespace DecafBackend

namespace Key

variable {kind : KeyKind}

/-- A key whose index fits the storage of its kind, and is not the reserved one. -/
structure Fits (key : Key kind) : Prop where
  stored : key.index < kind.limit
  used : key.isReserved = false

instance (key : Key kind) : Decidable key.Fits :=
  decidable_of_iff (key.index < kind.limit ∧ key.isReserved = false)
    ⟨fun h => ⟨h.1, h.2⟩, fun h => ⟨h.1, h.2⟩⟩

theorem index_injective {a b : Key kind} (h : a.index = b.index) : a = b := by
  cases a
  cases b
  exact congrArg Key.mk h

/-- Different keys below a bound are no more than the bound. -/
theorem length_le {keys : List (Key kind)} (hnodup : keys.Nodup) {bound : Nat}
    (h : ∀ key ∈ keys, key.index < bound) : keys.length ≤ bound := by
  have hindices : (keys.map Key.index).Nodup :=
    List.Pairwise.map Key.index (fun _ _ hne hsame => hne (index_injective hsame)) hnodup
  have hsub : keys.map Key.index ⊆ List.range bound := by
    intro index hindex
    obtain ⟨key, hkey, rfl⟩ := List.mem_map.mp hindex
    exact List.mem_range.mpr (h key hkey)
  have hle := hindices.length_le_of_subset hsub
  rwa [List.length_map, List.length_range] at hle

end Key

/-! ## Padding -/

section

variable {β : Type}

/-- A padded array has room for its index. -/
theorem size_padded (xs : Array β) (index : Nat) (pad : β) :
    (xs ++ Array.replicate (index + 1 - xs.size) pad).size = max xs.size (index + 1) := by
  rw [Array.size_append, Array.size_replicate]
  omega

/-- Reads do not see what an array was padded with, if they give it themselves. -/
theorem getD_padded (xs : Array β) (more : Nat) (pad : β) (index : Nat) :
    (xs ++ Array.replicate more pad)[index]?.getD pad = xs[index]?.getD pad := by
  rw [Array.getElem?_append]
  split
  · rfl
  · next hout =>
      rw [Array.getElem?_eq_none (Nat.le_of_not_lt hout), Array.getElem?_replicate]
      split <;> rfl

end

/-! ## Values -/

namespace SlotMap

variable {kind : KeyKind} {α : Type} {map : SlotMap kind α} {key : Key kind}

/-- A map that holds something else at one key, and the same at all others. -/
def Updates (map : SlotMap kind α) (key : Key kind) (value : Option α)
    (after : SlotMap kind α) : Prop :=
  ∀ other, after.get? other = if other = key then value else map.get? other

/-- A value that is there is found. -/
theorem get_eq {value : α} (h : map.get? key = some value) : map.get key = .ok value := by
  rw [get, h]

/-- A value that is there is within the slots. -/
theorem lt_size {value : α} (h : map.get? key = some value) : key.index < map.slots.size := by
  have hslot : map.slots[key.index]? = some (some value) := Option.join_eq_some_iff.mp h
  exact (Array.getElem?_eq_some_iff.mp hslot).1

/-- Writing a slot that exists. -/
theorem updates_set {slots : Array (Option α)} (hlt : key.index < slots.size)
    (hsame : ∀ index : Nat, slots[index]?.join = map.slots[index]?.join) (value : Option α)
    (count : Nat) : map.Updates key value ⟨slots.setIfInBounds key.index value, count⟩ := by
  intro other
  rw [get?, Array.getElem?_setIfInBounds]
  by_cases heq : other = key
  · rw [if_pos heq, heq, if_pos rfl, if_pos hlt]
    rfl
  · have hindex : key.index ≠ other.index := fun h => heq (Key.index_injective h.symm)
    rw [if_neg heq, if_neg hindex]
    exact hsame other.index

theorem size_grow (slots : Array (Option α)) (index : Nat) :
    (grow slots index).size = max slots.size (index + 1) := size_padded slots index none

theorem lt_size_grow (slots : Array (Option α)) (index : Nat) :
    index < (grow slots index).size := by
  rw [size_grow]
  exact Nat.le_max_right _ _

theorem join_eq_getD (slot : Option (Option α)) : slot.join = slot.getD none := by
  cases slot <;> rfl

/-- New slots are empty. -/
theorem join_grow (slots : Array (Option α)) (index other : Nat) :
    (grow slots index)[other]?.join = slots[other]?.join := by
  rw [join_eq_getD, join_eq_getD]
  exact getD_padded slots _ none other

/-- A new key. -/
theorem insert_new (h : map.get? key = none) (hroom : map.count + 1 < wordLimit) (value : α) :
    ∃ after, map.insert key value = .ok (none, after) ∧ map.Updates key (some value) after ∧
      after.count = map.count + 1 := by
  refine ⟨_, ?_, updates_set (lt_size_grow map.slots key.index) (join_grow map.slots key.index)
    (some value) (map.count + 1), rfl⟩
  rw [insert, h]
  exact if_pos hroom

/-- Another value for a key that has one. -/
theorem modify_at {value : α} (h : map.get? key = some value) (f : α → α) :
    ∃ after, map.modify key (fun value => return f value) = .ok after ∧
      map.Updates key (some (f value)) after ∧ after.count = map.count := by
  refine ⟨_, ?_, updates_set (lt_size h) (fun _ => rfl) (some (f value)) map.count, rfl⟩
  rw [modify, Checked.bind_ok (get_eq h)]
  rfl

/-- A key that is taken out. -/
theorem remove_at {value : α} (h : map.get? key = some value) (hcount : map.count ≠ 0) :
    ∃ after, map.remove key = .ok (some value, after) ∧ map.Updates key none after ∧
      after.count = map.count - 1 := by
  refine ⟨_, ?_, updates_set (lt_size h) (fun _ => rfl) none (map.count - 1), rfl⟩
  rw [remove, h]
  exact if_neg hcount

/-- Different keys that have values are no more than the slots. -/
theorem length_le_slots {keys : List (Key kind)} (hnodup : keys.Nodup)
    (h : ∀ key ∈ keys, ∃ value, map.get? key = some value) : keys.length ≤ map.slots.size := by
  refine Key.length_le hnodup fun key hkey => ?_
  obtain ⟨value, hvalue⟩ := h key hkey
  exact lt_size hvalue

end SlotMap

end DecafBackend
