import Mathlib.Data.List.Forall2
import DecafBackend.Source.Reader

/-! # Spellings of records and alternatives

    One value has many written forms.  The fields of a record stand in an object, in
    any order and among others, or in an array by position; a field with a default
    may be left out when it holds that.  An alternative without payload is its name,
    or an object with `null` under that name.

    * `Field`, `IsObject`, `IsRecord` — the spellings of a record
    * `IsTagged`, `IsWord` — the spellings of an alternative
    * `members?_found`, `record?_found` — the fields of a spelling are found
    * `required_eq`, `defaulted_eq` — and read -/

namespace DecafBackend.Json

/-! ## Spellings -/

/-- A field of a record. -/
structure Field where
  /-- The name. -/
  name : String
  /-- The values that spell what it holds. -/
  spells : Json → Prop
  /-- Whether it holds its default, and may be left out. -/
  isIdle : Prop

/-- A field that cannot be left out. -/
def Field.needed (name : String) (spells : Json → Prop) : Field := ⟨name, spells, False⟩

/-- Members that give fields in order, where some may be left out. -/
inductive Gives : List Field → List (String × Json) → Prop
  | nil : Gives [] []
  | given {field : Field} {fields : List Field} {value : Json} {members : List (String × Json)} :
    field.spells value → Gives fields members →
      Gives (field :: fields) ((field.name, value) :: members)
  | leftOut {field : Field} {fields : List Field} {members : List (String × Json)} :
    field.isIdle → Gives fields members → Gives (field :: fields) members

/-- An object that gives fields, with further members and in any order. -/
def IsObject (fields : List Field) (json : Json) : Prop :=
  ∃ members given further, json = object members ∧ members.Perm (given ++ further) ∧
    Gives fields given ∧ ∀ member ∈ further, member.1 ∉ fields.map Field.name

/-- Items that give fields by position, where the last ones may be left out. -/
inductive IsPositional : List Field → List Json → Prop
  | leftOut {fields : List Field} : (∀ field ∈ fields, field.isIdle) → IsPositional fields []
  | given {field : Field} {fields : List Field} {value : Json} {items : List Json} :
    field.spells value → IsPositional fields items →
      IsPositional (field :: fields) (value :: items)

/-- An object or an array that gives fields. -/
def IsRecord (fields : List Field) (json : Json) : Prop :=
  IsObject fields json ∨ ∃ items, json = array items ∧ IsPositional fields items

/-- An alternative with a payload. -/
def IsTagged (tag : String) (spells : Json → Prop) (json : Json) : Prop :=
  ∃ payload, json = object [(tag, payload)] ∧ spells payload

/-- An alternative without payload. -/
def IsWord (word : String) (json : Json) : Prop :=
  json = string word ∨ json = object [(word, null)]

variable {json value : Json} {field : Field} {fields : List Field} {members : List (String × Json)}
  {items : List Json} {bound : Nat}

/-- The members in order and nothing else are an object. -/
theorem Gives.isObject (h : Gives fields members) : IsObject fields (object members) :=
  ⟨members, members, [], rfl, by rw [List.append_nil], h, List.forall_mem_nil _⟩

/-! ## Depths -/

theorem depth_pos (json : Json) : 0 < json.depth := by
  cases json <;> exact Nat.succ_pos _

/-- An item of an array is less deep than the array. -/
theorem depth_lt_of_item (h : value ∈ items) : value.depth < (array items).depth := by
  refine Nat.lt_succ_of_le ?_
  induction items with
  | nil => cases h
  | cons item rest ih =>
      rcases List.mem_cons.mp h with rfl | h
      · exact Nat.le_max_left _ _
      · exact Nat.le_trans (ih h) (Nat.le_max_right _ _)

/-- A member of an object is less deep than the object. -/
theorem depth_lt_of_member {name : String} (h : (name, value) ∈ members) :
    value.depth < (object members).depth := by
  refine Nat.lt_succ_of_le ?_
  induction members with
  | nil => cases h
  | cons member rest ih =>
      rcases List.mem_cons.mp h with rfl | h
      · exact Nat.le_max_left _ _
      · exact Nat.le_trans (ih h) (Nat.le_max_right _ _)

/-! ## Finding fields -/

/-- What is found of a field: a value that spells it and is less deep than the record,
    or nothing if it may be left out. -/
def Field.Found (bound : Nat) (field : Field) : Option Json → Prop
  | some value => field.spells value ∧ value.depth < bound
  | none => field.isIdle

/-- Members have the names of the fields that they give. -/
theorem Gives.name_mem (h : Gives fields members) {member : String × Json}
    (hmem : member ∈ members) : member.1 ∈ fields.map Field.name := by
  induction h with
  | nil => cases hmem
  | given _ _ ih =>
      rcases List.mem_cons.mp hmem with rfl | hmem
      · exact List.mem_cons_self
      · exact List.mem_cons_of_mem _ (ih hmem)
  | leftOut _ _ ih => exact List.mem_cons_of_mem _ (ih hmem)

/-- Members of one name among members that give fields of different names. -/
theorem Gives.filter (h : Gives fields members) (hnodup : (fields.map Field.name).Nodup)
    (hfield : field ∈ fields) :
    (∃ value, members.filter (·.1 == field.name) = [(field.name, value)] ∧ field.spells value) ∨
      (members.filter (·.1 == field.name) = [] ∧ field.isIdle) := by
  -- by induction on the given fields; another field of the same name is excluded by
  -- `hnodup`
  induction h with
  | nil => cases hfield
  | @given first fields value members hvalue hrest ih =>
      obtain ⟨hfirst, hnodup⟩ := List.nodup_cons.mp hnodup
      rcases List.mem_cons.mp hfield with rfl | hfield
      · have hothers : members.filter (·.1 == field.name) = [] := by
          refine List.filter_eq_nil_iff.mpr fun member hmem heq => hfirst ?_
          exact beq_iff_eq.mp heq ▸ hrest.name_mem hmem
        refine Or.inl ⟨value, ?_, hvalue⟩
        rw [List.filter_cons, if_pos (beq_self_eq_true field.name), hothers]
      · have hne : ¬ (first.name == field.name) = true := by
          intro heq
          rw [beq_iff_eq.mp heq] at hfirst
          exact hfirst (List.mem_map_of_mem hfield)
        rw [List.filter_cons, if_neg hne]
        exact ih hnodup hfield
  | @leftOut first fields members hidle hrest ih =>
      obtain ⟨hfirst, hnodup⟩ := List.nodup_cons.mp hnodup
      rcases List.mem_cons.mp hfield with rfl | hfield
      · refine Or.inr ⟨List.filter_eq_nil_iff.mpr fun member hmem heq => hfirst ?_, hidle⟩
        exact beq_iff_eq.mp heq ▸ hrest.name_mem hmem
      · exact ih hnodup hfield

/-- **OBJECTS GIVE THEIR FIELDS**, whatever the order and whatever else is there. -/
theorem members?_found (names : List String) (hnames : fields.map Field.name = names)
    (hnodup : names.Nodup) (h : IsObject fields json) :
    ∃ found, json.members? names = some found ∧
      List.Forall₂ (Field.Found json.depth) fields found := by
  subst hnames
  obtain ⟨members, given, further, rfl, hperm, hgives, hfurther⟩ := h
  have hfind : ∀ field ∈ fields, ∃ found, member? members field.name = some found ∧
      field.Found (object members).depth found := by
    -- every name stands once among all the members, given ones and further ones
    intro field hfield
    have hother : further.filter (·.1 == field.name) = [] := by
      refine List.filter_eq_nil_iff.mpr fun member hmem heq => hfurther member hmem ?_
      exact beq_iff_eq.mp heq ▸ List.mem_map_of_mem hfield
    have hsame := hperm.filter (·.1 == field.name)
    rw [List.filter_append, hother, List.append_nil] at hsame
    rcases hgives.filter hnodup hfield with ⟨value, hgiven, hvalue⟩ | ⟨hgiven, hidle⟩
    · rw [hgiven] at hsame
      have hmember := List.perm_singleton.mp hsame
      have hmem : (field.name, value) ∈ members :=
        List.mem_of_mem_filter (hmember ▸ List.mem_singleton_self _)
      exact ⟨some value, by rw [member?, hmember], hvalue, depth_lt_of_member hmem⟩
    · rw [hgiven] at hsame
      exact ⟨none, by rw [member?, List.perm_nil.mp hsame], hidle⟩
  -- the names are looked up one after another
  rw [members?]
  clear hnodup hgives hfurther
  induction fields with
  | nil => exact ⟨[], rfl, .nil⟩
  | cons field fields ih =>
      obtain ⟨⟨first, hfirst, hfound⟩, hrest⟩ := List.forall_mem_cons.mp hfind
      obtain ⟨rest, heq, hall⟩ := ih hrest
      refine ⟨first :: rest, ?_, .cons hfound hall⟩
      rw [List.map_cons, List.mapM_cons, hfirst, heq]
      rfl

/-- Items by position, and nothing for the fields that are left out. -/
theorem IsPositional.found (h : IsPositional fields items)
    (hbound : ∀ item ∈ items, item.depth < bound) :
    items.length ≤ fields.length ∧ List.Forall₂ (Field.Found bound) fields
      (items.map some ++ List.replicate (fields.length - items.length) none) := by
  induction h with
  | @leftOut fields hidle =>
      refine ⟨Nat.zero_le _, ?_⟩
      rw [List.map_nil, List.nil_append, List.length_nil, Nat.sub_zero]
      induction fields with
      | nil => exact .nil
      | cons field fields ih =>
          obtain ⟨hfirst, hrest⟩ := List.forall_mem_cons.mp hidle
          exact .cons hfirst (ih hrest)
  | given hvalue _ ih =>
      obtain ⟨hfirst, hrest⟩ := List.forall_mem_cons.mp hbound
      obtain ⟨hle, hall⟩ := ih hrest
      refine ⟨Nat.succ_le_succ hle, ?_⟩
      rw [List.length_cons, List.length_cons, Nat.succ_sub_succ]
      exact .cons ⟨hvalue, hfirst⟩ hall

/-- **RECORDS GIVE THEIR FIELDS**, as objects and as arrays. -/
theorem record?_found (names : List String) (hnames : fields.map Field.name = names)
    (hnodup : names.Nodup) (h : IsRecord fields json) :
    ∃ found, json.record? names = some found ∧
      List.Forall₂ (Field.Found json.depth) fields found := by
  rcases h with hobject | ⟨items, rfl, hitems⟩
  · obtain ⟨found, hfound, hall⟩ := members?_found names hnames hnodup hobject
    obtain ⟨members, -, -, rfl, -⟩ := hobject
    exact ⟨found, hfound, hall⟩
  · obtain ⟨hle, hall⟩ := hitems.found fun item => depth_lt_of_item
    refine ⟨_, ?_, hall⟩
    rw [record?, ← hnames, List.length_map, if_pos hle]

/-! ## Reading fields -/

open Source (required defaulted)

variable {α : Type} {read : Json → Option α} {a default : α} {found : Option Json}

/-- A needed field is read as its reader reads its value. -/
theorem required_eq {name : String} {spells : Json → Prop}
    (h : (Field.needed name spells).Found bound found)
    (hread : ∀ value, spells value → value.depth < bound → read value = some a) :
    required read found = some a := by
  cases found with
  | none => cases h
  | some value => exact hread value h.1 h.2

/-- A field with a default is read as the default when it is left out. -/
theorem defaulted_eq (h : field.Found bound found) (hidle : field.isIdle → default = a)
    (hread : ∀ value, field.spells value → value.depth < bound → read value = some a) :
    defaulted default read found = some a := by
  cases found with
  | none => exact congrArg some (hidle h)
  | some value => exact hread value h.1 h.2

/-- A field that spells a text. -/
theorem required_string {name text : String}
    (h : (Field.needed name (· = string text)).Found bound found) :
    required string? found = some text :=
  required_eq h fun _ hvalue _ => hvalue ▸ rfl

/-- A field that spells a truth value, false unless given. -/
theorem defaulted_bool {name : String} {truth : Bool}
    (h : Field.Found bound ⟨name, (· = bool truth), truth = false⟩ found) :
    defaulted false bool? found = some truth :=
  defaulted_eq h Eq.symm fun _ hvalue _ => hvalue ▸ rfl

/-! ## Reading alternatives -/

/-- A tagged object gives its tag and its payload. -/
theorem variant?_tagged {tag : String} {spells : Json → Prop} (h : IsTagged tag spells json) :
    ∃ payload, json.variant? = some (tag, some payload) ∧ spells payload ∧
      payload.depth < json.depth := by
  obtain ⟨payload, rfl, hpayload⟩ := h
  exact ⟨payload, rfl, hpayload, depth_lt_of_member List.mem_cons_self⟩

theorem tag?_word {word : String} (h : IsWord word json) : json.tag? = some word := by
  rcases h with rfl | rfl <;> rfl

/-- A field that spells one of the words of a table. -/
theorem required_word {name word : String} {ofWord? : String → Option α}
    (h : (Field.needed name (IsWord word)).Found bound found) (hword : ofWord? word = some a) :
    (required tag? found).bind ofWord? = some a := by
  rw [required_eq h fun _ hvalue _ => tag?_word hvalue]
  exact hword

/-! ## Values that may be absent -/

theorem IsRecord.ne_null (h : IsRecord fields json) : json ≠ null := by
  rcases h with ⟨_, _, _, rfl, -⟩ | ⟨_, rfl, -⟩ <;> exact Json.noConfusion

theorem IsTagged.ne_null {tag : String} {spells : Json → Prop} (h : IsTagged tag spells json) :
    json ≠ null := by
  obtain ⟨_, rfl, -⟩ := h
  exact Json.noConfusion

theorem nullable?_eq (hnull : json ≠ null) (hread : read json = some a) :
    json.nullable? read = some (some a) := by
  rw [nullable?, hread]
  · rfl
  · exact hnull

end DecafBackend.Json
