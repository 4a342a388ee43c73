import Mathlib.Data.List.Nodup
import DecafBackend.KeySet
import DecafBackend.Proofs.SlotMapHistories

/-! # Key sets after any operations

    Whatever is put into a key set, joined with it and taken out again, in any order, the
    set holds what the operations say and counts it.  Equality compares the keys: two
    sets are equal exactly if they hold the same ones, in however many bits.

    * `History`, `History.Holds` — operations, and what they say
    * `Fits`, `History.fits` — the invariant, kept by each operation
    * `Exact`, `Fits.beq_iff` — what fitting guarantees
    * `histories_compared` — sets compare their keys, and slot maps their slots -/

namespace DecafBackend

namespace KeySet

variable {kind : KeyKind}

/-- How a key set came about. -/
inductive History (kind : KeyKind)
  /-- A set without bits. -/
  | new
  /-- A set with room for the first keys. -/
  | withSize (size : Nat)
  /-- Those of the first keys that satisfy a test. -/
  | filterKeys (size : Nat) (test : Key kind → Bool)
  /-- The keys of a list. -/
  | ofList (keys : List (Key kind))
  /-- A key was added. -/
  | insert (key : Key kind) (before : History kind)
  /-- A key was taken away. -/
  | remove (key : Key kind) (before : History kind)
  /-- Every key was taken away. -/
  | clear (before : History kind)
  /-- The keys of another set were added. -/
  | union (other before : History kind)

namespace History

/-- The set that operations lead to. -/
def set : History kind → KeySet kind
  | new => {}
  | withSize size => .withSize size
  | filterKeys size test => .filterKeys size test
  | ofList keys => .ofList keys
  | insert key before => before.set.insert key
  | remove key before => before.set.remove key
  | clear before => before.set.clear
  | union other before => (before.set.union other.set).2

/-- Operations leave a key in. -/
def Holds : History kind → Key kind → Prop
  | new, _ | withSize _, _ | clear _, _ => False
  | filterKeys size test, key => key.index < size ∧ test key = true
  | ofList keys, key => key ∈ keys
  | insert added before, key => key = added ∨ before.Holds key
  | remove removed before, key => key ≠ removed ∧ before.Holds key
  | union other before, key => before.Holds key ∨ other.Holds key

end History

/-- A set holds the keys of a predicate, and counts the bits that are set. -/
structure Fits (holds : Key kind → Prop) (set : KeySet kind) : Prop where
  contains : ∀ key, set.contains key = true ↔ holds key
  size : set.size = set.bits.toList.countP (· == true)

variable {set other : KeySet kind} {key : Key kind} {holds holds' : Key kind → Prop}

/-! ## Bits -/

/-- Bits that were grown for an index have it. -/
theorem lt_size_grow (bits : Array Bool) (index : Nat) : index < (grow bits index).size := by
  rw [grow, size_padded]
  exact Nat.le_max_right _ _

/-- A key is in the set if its bit is set. -/
theorem contains_iff : set.contains key = true ↔ set.bits[key.index]? = some true := by
  rw [contains, Option.getD_eq_iff]
  exact or_iff_left nofun

/-- What a write to a bit does to the set. -/
theorem contains_write {bits : Array Bool} (hlt : key.index < bits.size)
    (hsame : ∀ index : Nat, bits[index]?.getD false = set.bits[index]?.getD false) (bit : Bool)
    (size : Nat) (x : Key kind) :
    contains ⟨bits.setIfInBounds key.index bit, size⟩ x =
      if x = key then bit else set.contains x := by
  rw [contains, Array.getElem?_setIfInBounds]
  by_cases heq : x = key
  · rw [if_pos heq, heq, if_pos rfl, if_pos hlt]
    rfl
  · have hindex : key.index ≠ x.index := fun h => heq (Key.index_injective h.symm)
    rw [if_neg heq, if_neg hindex]
    exact hsame x.index

/-- What a write to a bit does to the count. -/
theorem countP_write {bits : Array Bool} (hlt : key.index < bits.size)
    (hsame : ∀ index : Nat, bits[index]?.getD false = set.bits[index]?.getD false) (bit : Bool) :
    (bits.setIfInBounds key.index bit).toList.countP (· == true) +
      (if set.contains key then 1 else 0) =
        bits.toList.countP (· == true) + if bit then 1 else 0 := by
  have hold : bits.toList[key.index]? = some (set.contains key) := by
    rw [Array.getElem?_toList, contains, ← hsame, Array.getElem?_eq_getElem hlt]
    rfl
  rw [Array.toList_setIfInBounds]
  have hcount := countP_set_add (p := (· == true)) hold bit
  simpa only [beq_iff_eq] using hcount

/-- To grow adds no key. -/
theorem countP_grow (bits : Array Bool) (index : Nat) :
    (grow bits index).toList.countP (· == true) = bits.toList.countP (· == true) :=
  countP_padded bits _ rfl

/-- The bit of a key of the set exists. -/
theorem lt_size (h : set.contains key = true) : key.index < set.bits.size :=
  (Array.getElem?_eq_some_iff.mp (contains_iff.mp h)).1

/-! ## Operations -/

namespace Fits

/-- A set fits whatever says the same. -/
theorem congr (h : Fits holds set) (hiff : ∀ key, holds key ↔ holds' key) : Fits holds' set :=
  ⟨fun key => (h.contains key).trans (hiff key), h.size⟩

/-- **INSERTION** adds its key. -/
theorem insert (h : Fits holds set) (key : Key kind) :
    Fits (fun x => x = key ∨ holds x) (set.insert key) := by
  have hlt := lt_size_grow set.bits key.index
  have hsame := getD_padded set.bits (key.index + 1 - set.bits.size) false
  -- the number of set bits grows by one, unless the bit was set before
  have hwrite := countP_write hlt hsame true
  rw [countP_grow, ← h.size] at hwrite
  refine ⟨fun x => ?_, ?_⟩
  · rw [KeySet.insert, contains_write hlt hsame, ← h.contains]
    split
    · next heq => exact ⟨fun _ => Or.inl heq, fun _ => rfl⟩
    · next hne => exact (or_iff_right hne).symm
  · rw [KeySet.insert]
    refine Nat.add_right_cancel (Eq.trans ?_ hwrite.symm)
    cases set.contains key <;> rfl

/-- **REMOVAL** takes its key out. -/
theorem remove (h : Fits holds set) (key : Key kind) :
    Fits (fun x => x ≠ key ∧ holds x) (set.remove key) := by
  rw [KeySet.remove]
  split
  · next hmem =>
      have hlt := lt_size hmem
      have hwrite := countP_write hlt (fun _ => rfl) false
      rw [hmem, ← h.size] at hwrite
      refine ⟨fun x => ?_, (Nat.eq_sub_of_add_eq hwrite).symm⟩
      rw [contains_write hlt fun _ => rfl, ← h.contains]
      split
      · next heq => exact ⟨fun hbit => absurd hbit Bool.false_ne_true, fun hx => absurd heq hx.1⟩
      · next hne => exact (and_iff_right hne).symm
  · next hmem =>
      refine h.congr fun x => (and_iff_right_of_imp fun hx => ?_).symm
      rintro rfl
      exact hmem ((h.contains x).mpr hx)

/-- A new set is empty, whatever room it has. -/
theorem withSize (size : Nat) : Fits (fun _ => False) (.withSize size : KeySet kind) := by
  refine ⟨fun key => ?_, ?_⟩
  · rw [contains_iff, KeySet.withSize, Array.getElem?_replicate]
    split <;> exact ⟨nofun, False.elim⟩
  · rw [KeySet.withSize, Array.toList_replicate, List.countP_replicate]
    rfl

/-- A filtered set has the keys that pass the test. -/
theorem filterKeys (size : Nat) (test : Key kind → Bool) :
    Fits (fun key => key.index < size ∧ test key = true) (.filterKeys size test) := by
  refine ⟨fun key => ?_, List.count_eq_countP⟩
  rw [contains_iff, KeySet.filterKeys, Array.getElem?_map, Array.getElem?_range]
  split
  · next hlt => exact ⟨fun hbit => ⟨hlt, Option.some.inj hbit⟩, fun hbit => congrArg some hbit.2⟩
  · next hge => exact ⟨nofun, fun hbit => absurd hbit.1 hge⟩

/-- A cleared set is empty. -/
theorem clear (set : KeySet kind) : Fits (fun _ => False) set.clear := by
  refine ⟨fun key => ?_, ?_⟩
  · rw [contains_iff, KeySet.clear, Array.getElem?_map]
    cases set.bits[key.index]? <;> exact ⟨nofun, False.elim⟩
  · rw [KeySet.clear, Array.toList_map, List.countP_map]
    exact (List.countP_eq_zero.mpr fun _ _ => Bool.false_ne_true).symm

/-- Keys that are added one after another. -/
theorem insertAll (h : Fits holds set) (keys : List (Key kind)) :
    Fits (fun x => holds x ∨ x ∈ keys) (keys.foldl KeySet.insert set) := by
  induction keys generalizing holds set with
  | nil => exact h.congr fun x => (or_iff_left List.not_mem_nil).symm
  | cons key rest ih =>
      refine (ih (h.insert key)).congr fun x => ?_
      rw [List.mem_cons, or_assoc, or_left_comm]

end Fits

/-- Adding the keys of a list does not depend on whether they are new. -/
theorem foldl_insert (keys : List (Key kind)) (changed : Bool) (set : KeySet kind) :
    (keys.foldl (fun (changed, set) key => (changed || !set.contains key, set.insert key))
      (changed, set)).2 = keys.foldl insert set := by
  induction keys generalizing changed set with
  | nil => rfl
  | cons key rest ih => exact ih _ _

/-! ## Listed keys -/

/-- The keys are those of the set. -/
theorem mem_keys : key ∈ set.keys ↔ set.contains key = true := by
  rw [keys, mem_filterMap_zipIdx, contains_iff]
  constructor
  · rintro ⟨index, bit, hbit, hkey⟩
    obtain ⟨rfl, hkey⟩ := Option.ite_none_right_eq_some.mp hkey
    cases hkey
    rwa [Array.getElem?_toList] at hbit
  · intro hbit
    refine ⟨key.index, true, ?_, rfl⟩
    rwa [Array.getElem?_toList]

/-- The keys are listed in order. -/
theorem sorted_keys (set : KeySet kind) : set.keys.Pairwise (· < ·) := by
  refine (pairwise_zipIdx _).filterMap _ ?_
  rintro ⟨bit, index⟩ ⟨bit', index'⟩ hlt key hkey key' hkey'
  obtain ⟨-, hkey⟩ := Option.ite_none_right_eq_some.mp hkey
  obtain ⟨-, hkey'⟩ := Option.ite_none_right_eq_some.mp hkey'
  cases hkey
  cases hkey'
  exact hlt

/-- There are as many keys as bits that are set. -/
theorem length_keys (set : KeySet kind) :
    set.keys.length = set.bits.toList.countP (· == true) :=
  length_filterMap_zipIdx fun bit index => by cases bit <;> rfl

/-! ## What fitting guarantees -/

/-- **KEY SETS FIT** what led to them. -/
theorem History.fits (history : History kind) : Fits history.Holds history.set := by
  induction history with
  | new => exact ⟨fun _ => ⟨nofun, False.elim⟩, rfl⟩
  | withSize size => exact .withSize size
  | filterKeys size test => exact .filterKeys size test
  | ofList keys =>
      have hnew : Fits (fun _ => False) ({} : KeySet kind) := ⟨fun _ => ⟨nofun, False.elim⟩, rfl⟩
      exact (hnew.insertAll keys).congr fun key => or_iff_right id
  | insert key before ih => exact ih.insert key
  | remove key before ih => exact ih.remove key
  | clear before => exact .clear before.set
  | union other before ihOther ih =>
      rw [set, KeySet.union, foldl_insert]
      refine (ih.insertAll other.set.keys).congr fun key => or_congr_right ?_
      rw [mem_keys, ihOther.contains]

/-- What a key set guarantees after operations. -/
structure Exact (history : History kind) (set : KeySet kind) : Prop where
  /-- Exactly the keys that the operations left in are in the set. -/
  contains : ∀ key, set.contains key = true ↔ history.Holds key
  /-- Exactly they are listed. -/
  keys : ∀ key, key ∈ set.keys ↔ history.Holds key
  /-- They are listed in order, each of them once. -/
  sorted : set.keys.Pairwise (· < ·)
  /-- The size is their number. -/
  size : set.size = set.keys.length

/-- **A SET IS WHAT ITS HISTORY SAYS**: members, keys, order and size. -/
theorem History.exact (history : History kind) : Exact history history.set where
  contains := history.fits.contains
  keys key := by rw [mem_keys, history.fits.contains]
  sorted := sorted_keys _
  size := history.fits.size.trans (length_keys _).symm

/-- Lists in order that have the same keys are the same. -/
theorem keys_eq_iff : set.keys = other.keys ↔ ∀ key, key ∈ set.keys ↔ key ∈ other.keys := by
  refine ⟨fun h key => by rw [h], fun h => ?_⟩
  have hne : ∀ {a b : Key kind}, a < b → a ≠ b := by
    rintro a b hlt rfl
    exact Nat.lt_irrefl _ hlt
  -- a list in order is determined by its members
  have hperm : set.keys.Perm other.keys :=
    (List.perm_ext_iff_of_nodup (set.sorted_keys.imp hne) (other.sorted_keys.imp hne)).mpr h
  exact hperm.eq_of_pairwise (fun a b _ _ hab hba => absurd hab (Nat.lt_asymm hba))
    set.sorted_keys other.sorted_keys

/-- Key sets are equal exactly if they hold the same keys. -/
theorem Fits.beq_iff (h : Fits holds set) (h' : Fits holds' other) :
    (set == other) = true ↔ ∀ key, holds key ↔ holds' key := by
  have hkeys : set.keys = other.keys ↔ ∀ key, holds key ↔ holds' key := by
    rw [keys_eq_iff]
    exact forall_congr' fun key => by rw [mem_keys, mem_keys, h.contains, h'.contains]
  rw [← hkeys]
  show (set.size == other.size && set.keys == other.keys) = true ↔ _
  rw [Bool.and_eq_true, beq_iff_eq, beq_iff_eq, and_iff_right_iff_imp]
  intro hsame
  rw [h.size, h'.size, ← length_keys, ← length_keys, hsame]

end KeySet

/-! ## Any operations -/

/-- **SETS COMPARE THEIR KEYS, MAPS THEIR SLOTS**: after any operations, slot maps and key
    sets hold, list and count what the operations left in them.  Key sets are equal
    exactly if they hold the same keys; slot maps are equal exactly if their keys have
    the same values and their operations made room equally far. -/
theorem histories_compared {kind : KeyKind} {α : Type} [DecidableEq α]
    (history other : SlotMap.History kind α) (keys keys' : KeySet.History kind) :
    (history.Present → history.reach < wordLimit → ∃ map, history.map = .ok map) ∧
    (∀ map, history.map = .ok map → SlotMap.Exact history map ∧
      ∀ map', other.map = .ok map' →
        ((map == map') = true ↔
          (∀ key, map.get? key = map'.get? key) ∧ history.reach = other.reach)) ∧
    KeySet.Exact keys keys.set ∧
    ((keys.set == keys'.set) = true ↔
      ∀ key, keys.set.contains key = keys'.set.contains key) := by
  refine ⟨history.map_ok, fun map h => ?_, keys.exact, ?_⟩
  · have hfits := history.fits h
    refine ⟨hfits.exact, fun map' h' => ?_⟩
    have hfits' := other.fits h'
    rw [beq_iff_eq, hfits.eq_iff hfits']
    refine and_congr_left' (forall_congr' fun key => ?_)
    rw [hfits.value, hfits'.value]
  · rw [keys.fits.beq_iff keys'.fits]
    refine forall_congr' fun key => ?_
    rw [Bool.eq_iff_iff, keys.fits.contains, keys'.fits.contains]

namespace KeySet.History

/-- A set of one key was joined with that of another one, which was taken out again. -/
def around : History ⟨"Key", 32⟩ :=
  .remove ⟨40⟩ (.union (.insert ⟨40⟩ .new) (.insert ⟨1⟩ .new))

/-- The way around holds the same keys. -/
theorem holds_around (key : Key ⟨"Key", 32⟩) :
    around.Holds key ↔ (insert ⟨1⟩ new).Holds key := by
  simp only [around, Holds, or_false]
  constructor
  · rintro ⟨hne, hone | hforty⟩
    · exact hone
    · exact absurd hforty hne
  · rintro rfl
    exact ⟨by decide, Or.inl rfl⟩

end KeySet.History

namespace SlotMap.History

/-- A key got a value, which was changed where it was, and another one came and went. -/
def detour : History ⟨"Key", 32⟩ Nat :=
  .modify ⟨2⟩ (· + 1) (.getOrInsert ⟨2⟩ 0 (.remove ⟨5⟩ (.insert ⟨5⟩ 7 (.withSize 3))))

/-- A key got a value, and there was room for the other one. -/
def direct : History ⟨"Key", 32⟩ Nat := .insert ⟨2⟩ 1 (.withSize 6)

/-- The detour leads to the same values. -/
theorem value?_detour (key : Key ⟨"Key", 32⟩) : detour.value? key = direct.value? key := by
  simp only [detour, direct, value?]
  by_cases htwo : key = ⟨2⟩
  · rw [htwo]
    rfl
  · rw [if_neg htwo, if_neg htwo, if_neg htwo]
    split <;> rfl

/-- Two ways to a map with one value in six slots, and two ways to a set of one key,
    which has 41 bits in the one and two in the other. -/
theorem detour_compared :
    (∃ map map', detour.map = .ok map ∧ direct.map = .ok map' ∧
      map.count = map.keys.length ∧ (map == map') = true) ∧
    (KeySet.History.around.set == (KeySet.History.insert ⟨1⟩ .new).set) = true := by
  obtain ⟨hok, hmaps, hset, hsets⟩ := histories_compared detour direct .around (.insert ⟨1⟩ .new)
  obtain ⟨hok', hmaps', hset', -⟩ := histories_compared direct detour (.insert ⟨1⟩ .new) .around
  obtain ⟨map, hmap⟩ := hok ⟨trivial, rfl⟩ (by decide)
  obtain ⟨map', hmap'⟩ := hok' trivial (by decide)
  obtain ⟨hexact, hequal⟩ := hmaps map hmap
  obtain ⟨hexact', -⟩ := hmaps' map' hmap'
  refine ⟨⟨map, map', hmap, hmap', hexact.count, (hequal map' hmap').mpr ⟨fun key => ?_, rfl⟩⟩,
    hsets.mpr fun key => ?_⟩
  · rw [hexact.value, hexact'.value, value?_detour]
  · rw [Bool.eq_iff_iff, hset.contains, hset'.contains, KeySet.History.holds_around]

/-- A key got a value. -/
def once : History ⟨"Key", 32⟩ Nat := .insert ⟨1⟩ 5 .new

/-- A key that came and went behind the only one with a value leaves slots that
    equality sees, although the keys have the same values and are counted alike. -/
theorem once_toldApart : ∃ map map', once.map = .ok map ∧
    (remove ⟨40⟩ (.insert ⟨40⟩ 9 once)).map = .ok map' ∧
    (∀ key, map.get? key = map'.get? key) ∧ map.count = map'.count ∧ (map == map') = false := by
  refine ⟨_, _, rfl, rfl, fun key => ?_, rfl, by decide⟩
  rw [(once.fits rfl).value, ((remove ⟨40⟩ (.insert ⟨40⟩ 9 once)).fits rfl).value]
  simp only [once, value?]
  by_cases hkey : key = ⟨40⟩
  · rw [hkey]
    rfl
  · rw [if_neg hkey, if_neg hkey]

end SlotMap.History

end DecafBackend
