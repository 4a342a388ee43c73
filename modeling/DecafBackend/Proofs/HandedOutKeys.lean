import DecafBackend.Arena
import DecafBackend.Key.Optional
import DecafBackend.Proofs.Checked

/-! # The keys that an arena hands out

    An arena hands out consecutive keys, as long as their indices fit the storage and a
    machine word counts the values.  The largest index of a storage fits it too, although
    it is the one that stands for an absent key.  So the value that fills an arena up to
    that index gets a key that cannot be stored as a present one.  All other keys can be
    stored and come back, and behind a storage of 64 bits or more there are no others.

    * `Key.ComesBack` — keys that are read as they were stored
    * `capacity`, `handOut_ok`, `handOut_error` — how many values an arena takes
    * `HandedOut`, `handOut_reserved` — what all keys guarantee, and the last one does not -/

namespace DecafBackend

/-- There is a key of every kind. -/
theorem KeyKind.limit_pos {kind : KeyKind} : 0 < kind.limit := Nat.two_pow_pos kind.bits

/-! ## Stored keys -/

namespace Key

variable {kind : KeyKind} {key : Key kind}

/-- The reserved key is the last one. -/
theorem isReserved_iff : key.isReserved = true ↔ key.index + 1 = kind.limit := by
  have hpos : 0 < kind.limit := KeyKind.limit_pos
  rw [isReserved, beq_iff_eq, KeyKind.reserved]
  omega

/-- A key can be stored as a present one, and is read as it was. -/
def ComesBack (key : Key kind) : Prop :=
  ∃ stored, OptionalKey.some key = .ok stored ∧ stored.toOption = some key

/-- A key that is not reserved comes back from an optional key. -/
theorem comesBack (h : key.isReserved = false) : key.ComesBack :=
  ⟨⟨key⟩, OptionalKey.some_eq h, OptionalKey.toOption_mk h⟩

/-- The reserved key is refused. -/
theorem refused (h : key.isReserved = true) :
    OptionalKey.some key = .error .reservedKey := if_pos h

end Key

namespace Arena

variable {kind : KeyKind} {α : Type} {arena : Arena kind α} {values : List α}

/-! ## Room -/

/-- Adds values one after another, and lists the keys that they get. -/
def handOut (arena : Arena kind α) : List α → Checked (List (Key kind) × Arena kind α)
  | [] => return ([], arena)
  | value :: rest => do
    let (key, arena) ← arena.insert value
    let (keys, arena) ← arena.handOut rest
    return (key :: keys, arena)

/-- The number of values that an arena takes: one for each index that fits the
    storage, as far as a machine word counts them. -/
def capacity (kind : KeyKind) : Nat := min kind.limit (wordLimit - 1)

/-- While there is room, an insertion hands out the next key. -/
theorem insert_ok (h : arena.size < capacity kind) (value : α) :
    arena.insert value = .ok (⟨arena.size⟩, ⟨arena.slots.push value⟩) := by
  obtain ⟨hlimit, hword⟩ := Nat.lt_min.mp h
  have hkey : Key.ofIndex kind arena.size = .ok ⟨arena.size⟩ := if_pos hlimit
  rw [insert, if_pos (Nat.add_lt_of_lt_sub hword), Checked.bind_ok hkey]
  rfl

/-- A full arena refuses an insertion. -/
theorem insert_error (h : capacity kind ≤ arena.size) (value : α) : arena.insert value =
    .error (if arena.size + 1 < wordLimit then .keyTooLarge else .overflow) := by
  by_cases hword : arena.size + 1 < wordLimit
  · have hlimit : ¬arena.size < kind.limit := fun hlt =>
      Nat.not_lt.mpr h (Nat.lt_min.mpr ⟨hlt, Nat.lt_sub_of_add_lt hword⟩)
    have hkey : Key.ofIndex kind arena.size = .error .keyTooLarge := if_neg hlimit
    rw [insert, if_pos hword, if_pos hword, Checked.bind_error hkey]
  · rw [insert, if_neg hword, if_neg hword]

/-- An arena with room hands out the keys behind those that it has handed out. -/
theorem handOut_ok (h : values = [] ∨ arena.size + values.length ≤ capacity kind) :
    arena.handOut values = .ok ((List.range' arena.size values.length).map Key.mk,
      ⟨arena.slots ++ values.toArray⟩) := by
  induction values generalizing arena with
  | nil =>
      rw [Array.append_empty]
      rfl
  | cons value rest ih =>
      have hroom : arena.size + (rest.length + 1) ≤ capacity kind :=
        h.resolve_left (List.cons_ne_nil value rest)
      have hsize : (⟨arena.slots.push value⟩ : Arena kind α).size = arena.size + 1 :=
        Array.size_push value
      have hrest := @ih ⟨arena.slots.push value⟩ (Or.inr (by omega))
      rw [hsize, List.push_append_toArray] at hrest
      rw [handOut, Checked.bind_ok (insert_ok (by omega) value)]
      exact Checked.bind_ok hrest

/-- An arena without room for all of the values stops at one of them. -/
theorem handOut_error (hvalues : values ≠ []) (h : capacity kind < arena.size + values.length) :
    ∃ fault, arena.handOut values = .error fault := by
  induction values generalizing arena with
  | nil => exact absurd rfl hvalues
  | cons value rest ih =>
      by_cases hfull : capacity kind ≤ arena.size
      · exact ⟨_, by rw [handOut, Checked.bind_error (insert_error hfull value)]⟩
      · have hlt : arena.size < capacity kind := Nat.not_le.mp hfull
        have hsize : (⟨arena.slots.push value⟩ : Arena kind α).size = arena.size + 1 :=
          Array.size_push value
        rw [List.length_cons] at h
        have hrest : rest ≠ [] := by
          rintro rfl
          exact absurd hlt (Nat.not_lt.mpr (Nat.le_of_lt_succ h))
        obtain ⟨fault, hfault⟩ := @ih ⟨arena.slots.push value⟩ hrest (by omega)
        refine ⟨fault, ?_⟩
        rw [handOut, Checked.bind_ok (insert_ok hlt value)]
        exact Checked.bind_error hfault

/-- Adding values is handing out their keys, and keeping the arena. -/
theorem insertAll_eq (arena : Arena kind α) (values : List α) :
    arena.insertAll values = Prod.snd <$> arena.handOut values := by
  induction values generalizing arena with
  | nil => rfl
  | cons value rest ih =>
      rw [insertAll, List.foldlM_cons, handOut]
      cases arena.insert value with
      | error fault => rfl
      | ok result =>
          obtain ⟨key, next⟩ := result
          show next.insertAll rest =
            Prod.snd <$> (next.handOut rest >>= fun (keys, after) => pure (key :: keys, after))
          rw [ih]
          cases next.handOut rest <;> rfl

/-! ## What the keys guarantee -/

/-- What holds of the keys that values get, and of the arena afterwards. -/
structure HandedOut (arena : Arena kind α) (values : List α) (keys : List (Key kind))
    (after : Arena kind α) : Prop where
  /-- The indices go on where the arena ended. -/
  indices : keys.map Key.index = List.range' arena.size values.length
  /-- The arena holds as many values more. -/
  size : after.size = arena.size + values.length
  /-- Each key names its value. -/
  named : keys.map after.get? = values.map some
  /-- A key comes back, unless its index is the largest one of the storage. -/
  comesBack : ∀ key ∈ keys, key.index + 1 ≠ kind.limit → key.ComesBack
  /-- A key with that index cannot be stored as a present one. -/
  refused : ∀ key ∈ keys, key.index + 1 = kind.limit →
    OptionalKey.some key = .error .reservedKey
  /-- It is handed out exactly where the values fill the arena up to that index,
      which takes a storage of less than 64 bits. -/
  reserved : (∃ key ∈ keys, key.isReserved = true) ↔
    values ≠ [] ∧ after.size = kind.limit ∧ kind.bits < 64

/-- All keys are handed out only if they are narrower than a machine word. -/
theorem bits_lt (h : kind.limit ≤ capacity kind) : kind.bits < 64 := by
  have hword : kind.limit ≤ wordLimit - 1 := Nat.le_trans h (Nat.min_le_right _ _)
  have hlt : 2 ^ kind.bits < 2 ^ 64 := Nat.lt_of_le_of_lt hword (by decide)
  exact (Nat.pow_lt_pow_iff_right (by decide)).mp hlt

/-- The keys behind an arena name the values behind its values. -/
theorem named_append (values : List α) :
    (List.range' arena.size values.length).map
      (fun index => (⟨arena.slots ++ values.toArray⟩ : Arena kind α).get? ⟨index⟩) =
        values.map some := by
  refine List.ext_getElem? fun i => ?_
  rw [List.getElem?_map, List.getElem?_map]
  by_cases hi : i < values.length
  · have hright : (arena.slots ++ values.toArray)[arena.slots.size + i]? =
        some values[i] := by
      rw [Array.getElem?_append_right (Nat.le_add_right _ _), Nat.add_sub_cancel_left,
        List.getElem?_toArray, List.getElem?_eq_getElem hi]
    rw [List.getElem?_range' hi, List.getElem?_eq_getElem hi, Nat.one_mul]
    exact congrArg some hright
  · rw [List.getElem?_eq_none (Nat.le_of_not_lt hi), List.getElem?_eq_none]
    · rfl
    · rw [List.length_range']
      exact Nat.le_of_not_lt hi

/-- The reserved key is among the keys behind an arena exactly where their values fill
    it up to the largest index. -/
theorem exists_reserved_iff (h : values = [] ∨ arena.size + values.length ≤ capacity kind) :
    (∃ key ∈ ((List.range' arena.size values.length).map Key.mk : List (Key kind)),
      key.isReserved = true) ↔
        values ≠ [] ∧ arena.size + values.length = kind.limit ∧ kind.bits < 64 := by
  constructor
  · rintro ⟨key, hkey, hreserved⟩
    obtain ⟨index, hindex, rfl⟩ := List.mem_map.mp hkey
    obtain ⟨hfrom, hto⟩ := List.mem_range'_1.mp hindex
    have hvalues : values ≠ [] := by
      rintro rfl
      exact Nat.not_lt.mpr hfrom hto
    have hroom : arena.size + values.length ≤ capacity kind := h.resolve_left hvalues
    -- the reserved key is the last one, so the values reach the end of the storage
    have hlast : index + 1 = kind.limit := Key.isReserved_iff.mp hreserved
    have hlimit : capacity kind ≤ kind.limit := Nat.min_le_left _ _
    exact ⟨hvalues, by omega, bits_lt (by omega)⟩
  · rintro ⟨hvalues, hfull, -⟩
    have hlength : 0 < values.length := List.length_pos_iff.mpr hvalues
    have hlast : kind.limit - 1 + 1 = kind.limit := Nat.sub_add_cancel KeyKind.limit_pos
    refine ⟨⟨kind.limit - 1⟩, List.mem_map.mpr ⟨_, ?_, rfl⟩, Key.isReserved_iff.mpr hlast⟩
    exact List.mem_range'_1.mpr ⟨by omega, by omega⟩

/-- Insertions hand out the next keys one after the other. -/
theorem handedOut (h : values = [] ∨ arena.size + values.length ≤ capacity kind) :
    HandedOut arena values ((List.range' arena.size values.length).map Key.mk)
      ⟨arena.slots ++ values.toArray⟩ where
  indices := by
    rw [List.map_map]
    exact List.map_id _
  size := Array.size_append
  named := by
    rw [List.map_map]
    exact named_append values
  comesBack _ _ hindex :=
    Key.comesBack (Bool.eq_false_iff.mpr fun hreserved => hindex (Key.isReserved_iff.mp hreserved))
  refused _ _ hindex := Key.refused (Key.isReserved_iff.mpr hindex)
  reserved := by
    have hsize : (⟨arena.slots ++ values.toArray⟩ : Arena kind α).size =
      arena.size + values.length := Array.size_append
    rw [hsize]
    exact exists_reserved_iff h

/-- **THE RESERVED KEY IS HANDED OUT LAST**: an arena takes values exactly as long as it
    has room for them, and the keys that they get are consecutive, name them and come
    back when they are stored, except for the key that fills the storage up to its
    largest index. -/
theorem handOut_reserved (arena : Arena kind α) (values : List α) :
    ((∃ result, arena.handOut values = .ok result) ↔
      values = [] ∨ arena.size + values.length ≤ capacity kind) ∧
    ∀ keys after, arena.handOut values = .ok (keys, after) →
      HandedOut arena values keys after := by
  -- without room for all of them an insertion fails
  have hroom : ∀ {result}, arena.handOut values = .ok result →
      values = [] ∨ arena.size + values.length ≤ capacity kind := by
    intro result hresult
    by_cases hvalues : values = []
    · exact Or.inl hvalues
    · refine Or.inr (Nat.le_of_not_lt fun hlt => ?_)
      obtain ⟨fault, hfault⟩ := handOut_error hvalues hlt
      cases hfault.symm.trans hresult
  refine ⟨⟨fun ⟨_, hresult⟩ => hroom hresult, fun h => ⟨_, handOut_ok h⟩⟩, ?_⟩
  intro keys after hresult
  have hkeys := (handOut_ok (hroom hresult)).symm.trans hresult
  cases hkeys
  exact handedOut (hroom hresult)

/-- Keys whose indices fit a byte. -/
def byteKeys : KeyKind := ⟨"Tiny", 8⟩

/-- 255 values fill an arena of such keys up to the largest index but one. -/
theorem byteKeys_comeBack : ∃ keys after,
    ({} : Arena byteKeys Nat).handOut (List.range 255) = .ok (keys, after) ∧
    keys.length = 255 ∧ after.size = 255 ∧ ∀ key ∈ keys, key.ComesBack := by
  have hroom : ({} : Arena byteKeys Nat).size + (List.range 255).length ≤ capacity byteKeys := by
    rw [List.length_range]
    decide +kernel
  obtain ⟨hok, hkeys⟩ := handOut_reserved ({} : Arena byteKeys Nat) (List.range 255)
  obtain ⟨⟨keys, after⟩, hresult⟩ := hok.mpr (Or.inr hroom)
  have hout := hkeys keys after hresult
  have hlength : keys.length = 255 := by
    rw [← List.length_map Key.index, hout.indices, List.length_range', List.length_range]
  refine ⟨keys, after, hresult, hlength, ?_, fun key hkey => hout.comesBack key hkey ?_⟩
  · rw [hout.size, List.length_range]
    rfl
  · have hindex : key.index ∈ List.range' 0 255 := by
      have hmem := List.mem_map_of_mem (f := Key.index) hkey
      rwa [hout.indices, List.length_range] at hmem
    have hlt : key.index < 0 + 255 := (List.mem_range'_1.mp hindex).2
    have hlimit : byteKeys.limit = 256 := rfl
    omega

/-- The 256th value gets the key that stands for an absent one, and that cannot be
    stored as a present one. -/
theorem byteKeys_lastRefused : ∃ keys after,
    ({} : Arena byteKeys Nat).handOut (List.range 256) = .ok (keys, after) ∧
    ⟨255⟩ ∈ keys ∧ (⟨255⟩ : Key byteKeys).isReserved = true ∧
    OptionalKey.some (⟨255⟩ : Key byteKeys) = .error .reservedKey := by
  have hroom : ({} : Arena byteKeys Nat).size + (List.range 256).length ≤ capacity byteKeys := by
    rw [List.length_range]
    decide +kernel
  refine ⟨_, _, handOut_ok (Or.inr hroom), List.mem_map.mpr ⟨255, ?_, rfl⟩, by decide, rfl⟩
  rw [List.length_range]
  exact List.mem_range'_1.mpr ⟨Nat.zero_le _, by decide⟩

end Arena

end DecafBackend
