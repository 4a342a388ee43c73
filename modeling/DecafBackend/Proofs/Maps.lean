import Std.Data.ExtTreeMap
import Std.Data.ExtTreeSet

/-! # Maps and sets under a lawful order

    Where only equal keys compare equal, looking up is a matter of equality. -/

namespace DecafBackend.Maps

variable {α β : Type} [Ord α] [Std.TransOrd α]

/-- A key of a map has a value. -/
theorem mem_iff {map : Std.ExtTreeMap α β} {key : α} :
    key ∈ map ↔ ∃ value, map[key]? = some value := by
  rw [← Std.ExtTreeMap.isSome_getElem?_iff_mem, Option.isSome_iff_exists]

theorem mem_of_getElem? {map : Std.ExtTreeMap α β} {key : α} {value : β}
    (h : map[key]? = some value) : key ∈ map := mem_iff.mpr ⟨value, h⟩

/-- What is left after keys are erased was there before. -/
theorem mem_of_mem_foldl_erase {map : Std.ExtTreeMap α β} {other : α} {keys : List α}
    (h : other ∈ keys.foldl (·.erase ·) map) : other ∈ map := by
  induction keys generalizing map with
  | nil => exact h
  | cons first rest ih => exact Std.ExtTreeMap.mem_of_mem_erase (ih h)

/-- What is left after keys are erased has the value it had. -/
theorem getElem?_of_foldl_erase {map : Std.ExtTreeMap α β} {other : α} {value : β}
    {keys : List α} (h : (keys.foldl (·.erase ·) map)[other]? = some value) :
    map[other]? = some value := by
  induction keys generalizing map with
  | nil => exact h
  | cons first rest ih =>
      have hfirst := ih h
      rw [Std.ExtTreeMap.getElem?_erase] at hfirst
      split at hfirst
      · cases hfirst
      · exact hfirst

/-- A key that was taken away has no value. -/
theorem ne_of_foldl_erase {map : Std.ExtTreeMap α β} {other : α} {value : β}
    {keys : List α} (h : (keys.foldl (·.erase ·) map)[other]? = some value) :
    ∀ k ∈ keys, k ≠ other := by
  induction keys generalizing map with
  | nil => exact nofun
  | cons first rest ih =>
      intro k hk
      rcases List.mem_cons.mp hk with rfl | hk
      · rintro rfl
        have hfirst : (map.erase k)[k]? = some value := getElem?_of_foldl_erase h
        rw [Std.ExtTreeMap.getElem?_erase_self] at hfirst
        cases hfirst
      · exact ih h k hk

variable [Std.LawfulEqOrd α]

theorem getElem?_insert [DecidableEq α] {map : Std.ExtTreeMap α β} {key other : α} {value : β} :
    (map.insert key value)[other]? = if key = other then some value else map[other]? := by
  rw [Std.ExtTreeMap.getElem?_insert]
  simp only [Std.LawfulEqOrd.compare_eq_iff_eq]

/-- Another key keeps its value. -/
theorem getElem?_insert_ne {map : Std.ExtTreeMap α β} {key other : α} {value : β}
    (h : other ≠ key) : (map.insert key value)[other]? = map[other]? := by
  rw [Std.ExtTreeMap.getElem?_insert,
    if_neg fun heq => h (Std.LawfulEqOrd.compare_eq_iff_eq.mp heq).symm]

theorem getElem?_erase [DecidableEq α] {map : Std.ExtTreeMap α β} {key other : α} :
    (map.erase key)[other]? = if key = other then none else map[other]? := by
  rw [Std.ExtTreeMap.getElem?_erase]
  simp only [Std.LawfulEqOrd.compare_eq_iff_eq]

theorem mem_insert {map : Std.ExtTreeMap α β} {key other : α} {value : β} :
    other ∈ map.insert key value ↔ other = key ∨ other ∈ map := by
  rw [Std.ExtTreeMap.mem_insert, Std.LawfulEqOrd.compare_eq_iff_eq, eq_comm]

/-- Taking keys away leaves the other keys as they are. -/
theorem getElem?_foldl_erase {map : Std.ExtTreeMap α β} {other : α} {keys : List α}
    (h : ∀ k ∈ keys, k ≠ other) :
    (keys.foldl (·.erase ·) map)[other]? = map[other]? := by
  induction keys generalizing map with
  | nil => rfl
  | cons first rest ih =>
      rw [List.foldl_cons, ih fun k hk => h k (List.mem_cons_of_mem first hk),
        Std.ExtTreeMap.getElem?_erase,
        if_neg fun heq => h first List.mem_cons_self (Std.LawfulEqOrd.compare_eq_iff_eq.mp heq)]

/-- Giving keys one value leaves the other keys as they are. -/
theorem getElem?_foldl_insert [DecidableEq α] {map : Std.ExtTreeMap α β} {keys : List α}
    {value : β} {other : α} :
    (keys.foldl (fun map key => map.insert key value) map)[other]? =
      if other ∈ keys then some value else map[other]? := by
  induction keys generalizing map with
  | nil => rfl
  | cons first rest ih =>
      rw [List.foldl_cons, ih, getElem?_insert]
      by_cases hrest : other ∈ rest
      · rw [if_pos hrest, if_pos (List.mem_cons_of_mem _ hrest)]
      · by_cases hfirst : first = other
        · rw [if_neg hrest, if_pos hfirst, if_pos (hfirst ▸ List.mem_cons_self)]
        · have hmem : other ∉ first :: rest := fun hmem =>
            (List.mem_cons.mp hmem).elim (fun heq => hfirst heq.symm) hrest
          rw [if_neg hrest, if_neg hfirst, if_neg hmem]

theorem set_mem_insert {set : Std.ExtTreeSet α} {key other : α} :
    other ∈ set.insert key ↔ other = key ∨ other ∈ set := by
  rw [Std.ExtTreeSet.mem_insert, Std.LawfulEqOrd.compare_eq_iff_eq, eq_comm]

theorem set_mem_erase {set : Std.ExtTreeSet α} {key other : α} :
    other ∈ set.erase key ↔ other ≠ key ∧ other ∈ set := by
  rw [Std.ExtTreeSet.mem_erase, ne_eq, Std.LawfulEqOrd.compare_eq_iff_eq, ne_eq, eq_comm]

omit [Std.LawfulEqOrd α] in
/-- What the steps of a traversal add to a set, one by one. -/
theorem set_mem_foldl_step {γ : Type} {step : Std.ExtTreeSet α → γ → Std.ExtTreeSet α} {key : α}
    {adds : γ → Prop} (h : ∀ set x, key ∈ step set x ↔ key ∈ set ∨ adds x) {xs : List γ}
    {set : Std.ExtTreeSet α} : key ∈ xs.foldl step set ↔ key ∈ set ∨ ∃ x ∈ xs, adds x := by
  induction xs generalizing set with
  | nil => simp
  | cons x xs ih =>
      rw [List.foldl_cons, ih, h, or_assoc]
      simp only [List.mem_cons, exists_eq_or_imp]

/-- A set with the keys of a list. -/
theorem set_mem_foldl_insert {set : Std.ExtTreeSet α} {keys : List α} {other : α} :
    other ∈ keys.foldl (·.insert ·) set ↔ other ∈ set ∨ other ∈ keys := by
  induction keys generalizing set with
  | nil => simp
  | cons first rest ih =>
      rw [List.foldl_cons, ih, set_mem_insert, List.mem_cons]
      constructor
      · rintro ((h | h) | h)
        · exact Or.inr (Or.inl h)
        · exact Or.inl h
        · exact Or.inr (Or.inr h)
      · rintro (h | h | h)
        · exact Or.inl (Or.inr h)
        · exact Or.inl (Or.inl h)
        · exact Or.inr h

end DecafBackend.Maps
