import DecafBackend.Proofs.EmissionCode
import Std.Data.String.ToNat

/-! # Labels of literal texts

    The label of a text is made of a stem, which is up to eight letters and digits
    of the text, and of the position of the text, in decimal digits with nothing in
    between.  Where a stem ends in digits, these can be taken for the first digits
    of a later position, and then two texts share a label.  That is the only way.

    * `Session.internAll` — a sequence of requests for labels
    * `internAll_label?` — each request gets the label that its text keeps
    * `textLabel_eq_iff` — when two labels are one
    * `internAll_labels` — which labels of a session are shared
    * `oneAmongEleven_collides` — texts for which that happens -/

namespace DecafBackend.Session

/-! ## Labels -/

/-- The letters and digits of a text that go into its label. -/
def stem (text : String) : List Char := (text.toList.filter Char.isAlphanum).take 8

/-- The decimal digits of a position. -/
def digits (position : Nat) : List Char := Nat.toDigits 10 position

/-- Different positions are written differently. -/
theorem digits_injective {i j : Nat} (h : digits i = digits j) : i = j := by
  apply Nat.repr_injective
  rw [Nat.repr, Nat.repr]
  exact congrArg String.ofList h

theorem isDigit_of_mem_digits {c : Char} {position : Nat} (h : c ∈ digits position) :
    c.isDigit = true :=
  Nat.isDigit_of_mem_toDigits (by decide) (by decide) h

/-- A label is read as its stem and its digits. -/
theorem toList_textLabel (text : String) (position : Nat) :
    (textLabel text position).toList = ['s', '_'] ++ stem text ++ digits position := by
  have hdigits : (toString position).toList = digits position := by
    show (Nat.repr position).toList = digits position
    rw [Nat.repr, String.toList_ofList, digits]
  rw [textLabel, String.toList_append, String.toList_append, hdigits, String.toList_ofList,
    String.toList_ofList]
  rfl

/-- The first text of two takes digits of the second one's position for its own: its
    stem is longer by just the digits that the later position has in front of the
    earlier one. -/
def Overlaps (early late : String × Nat) : Prop :=
  ∃ extra, extra ≠ [] ∧ stem early.1 = stem late.1 ++ extra ∧
    digits late.2 = extra ++ digits early.2

/-- **WHEN TWO LABELS ARE ONE**: the texts have one position and one stem, or the
    digits of a position overlap with a stem. -/
theorem textLabel_eq_iff {a b : String} {i j : Nat} :
    textLabel a i = textLabel b j ↔
      (i = j ∧ stem a = stem b) ∨ Overlaps (a, i) (b, j) ∨ Overlaps (b, j) (a, i) := by
  rw [← String.toList_inj, toList_textLabel, toList_textLabel, List.append_assoc,
    List.append_assoc, List.append_cancel_left_eq, List.append_eq_append_iff]
  constructor
  · rintro (⟨extra, hstem, hdigits⟩ | ⟨extra, hstem, hdigits⟩)
    · cases extra with
      | nil =>
          rw [List.append_nil] at hstem
          exact Or.inl ⟨digits_injective hdigits, hstem.symm⟩
      | cons c rest => exact Or.inr (Or.inr ⟨c :: rest, List.cons_ne_nil _ _, hstem, hdigits⟩)
    · cases extra with
      | nil =>
          rw [List.append_nil] at hstem
          exact Or.inl ⟨(digits_injective hdigits).symm, hstem⟩
      | cons c rest => exact Or.inr (Or.inl ⟨c :: rest, List.cons_ne_nil _ _, hstem, hdigits⟩)
  · rintro (⟨rfl, hstem⟩ | ⟨extra, -, hstem, hdigits⟩ | ⟨extra, -, hstem, hdigits⟩)
    · exact Or.inl ⟨[], by rw [hstem, List.append_nil], rfl⟩
    · exact Or.inr ⟨extra, hstem, hdigits⟩
    · exact Or.inl ⟨extra, hstem, hdigits⟩

/-- Only a stem that ends in a digit overlaps. -/
theorem Overlaps.isDigit {early late : String × Nat} (h : Overlaps early late) :
    ∃ c, (stem early.1).getLast? = some c ∧ c.isDigit = true := by
  obtain ⟨extra, hextra, hstem, hdigits⟩ := h
  refine ⟨extra.getLast hextra, ?_, ?_⟩
  · rw [hstem, List.getLast?_append_of_ne_nil _ hextra, List.getLast?_eq_some_getLast hextra]
  · have hmem : extra.getLast hextra ∈ digits late.2 := by
      rw [hdigits]
      exact List.mem_append_left _ (List.getLast_mem hextra)
    exact isDigit_of_mem_digits hmem

/-! ## Sequences of requests -/

/-- Asks for the labels of texts one after another. -/
def internAll (session : Session) : List String → List String × Session
  | [] => ([], session)
  | text :: rest =>
    let (label, session) := session.internText text
    let (labels, session) := session.internAll rest
    (label :: labels, session)

/-- Interning only adds entries. -/
theorem internAll_grows (session : Session) (requests : List String) :
    Grows session (session.internAll requests).2 := by
  induction requests generalizing session with
  | nil => exact Grows.refl session
  | cons text rest ih => exact (grows_internText session text).1.trans (ih _)

/-- Each request gets the label that its text has in the end. -/
theorem internAll_label? (session : Session) (requests : List String) :
    (session.internAll requests).1.map some =
      requests.map (session.internAll requests).2.label? := by
  induction requests generalizing session with
  | nil => rfl
  | cons text rest ih =>
      obtain ⟨-, hlabel⟩ := grows_internText session text
      -- the label that the first request gets is not touched by those behind it
      have hlate := (internAll_grows (session.internText text).2 rest).label? hlabel
      show some (session.internText text).1 :: _ = _ :: _
      rw [List.cons.injEq]
      exact ⟨hlate.symm, ih _⟩

/-- A text is added unless it is there already. -/
theorem texts_internText (session : Session) (text : String) :
    (session.internText text).2.texts =
      if text ∈ session.texts then session.texts else session.texts ++ [text] := by
  rw [internText]
  cases hposition : session.texts.idxOf? text with
  | none => rw [if_neg (List.idxOf?_eq_none_iff.mp hposition)]
  | some position =>
      have hmem : text ∈ session.texts := by
        refine Classical.byContradiction fun hnot => ?_
        cases hposition.symm.trans (List.idxOf?_eq_none_iff.mpr hnot)
      rw [if_pos hmem]

theorem nodup_internText {session : Session} (h : session.texts.Nodup) (text : String) :
    (session.internText text).2.texts.Nodup := by
  rw [texts_internText]
  split
  · exact h
  · next hnew =>
      rw [List.nodup_append]
      refine ⟨h, List.nodup_cons.mpr ⟨List.not_mem_nil, List.nodup_nil⟩, ?_⟩
      rintro a ha b hb rfl
      rw [List.mem_singleton] at hb
      exact hnew (hb ▸ ha)

theorem mem_internText {session : Session} {text other : String} :
    other ∈ (session.internText text).2.texts ↔ other ∈ session.texts ∨ other = text := by
  rw [texts_internText]
  split
  · next hmem =>
      refine (or_iff_left_of_imp ?_).symm
      rintro rfl
      exact hmem
  · rw [List.mem_append, List.mem_singleton]

/-- A session collects every text once. -/
theorem nodup_internAll {session : Session} (h : session.texts.Nodup) (requests : List String) :
    (session.internAll requests).2.texts.Nodup := by
  induction requests generalizing session with
  | nil => exact h
  | cons text rest ih => exact ih (nodup_internText h text)

/-- The texts are the old ones and the requested ones. -/
theorem mem_internAll {session : Session} {requests : List String} {text : String} :
    text ∈ (session.internAll requests).2.texts ↔ text ∈ session.texts ∨ text ∈ requests := by
  induction requests generalizing session with
  | nil =>
      rw [or_iff_left List.not_mem_nil]
      rfl
  | cons other rest ih =>
      show text ∈ ((session.internText other).2.internAll rest).2.texts ↔ _
      rw [ih, mem_internText, List.mem_cons, or_assoc]

/-! ## Shared labels -/

/-- The label of one text of a list, which is the earlier one, overlaps with the
    position of another. -/
def Shares (texts : List String) (a b : String) : Prop :=
  ∃ i j, texts[i]? = some a ∧ texts[j]? = some b ∧ Overlaps (a, i) (b, j)

/-- A text stands at one position of a list without repetitions. -/
theorem position_unique {texts : List String} (h : texts.Nodup) {text : String} {i j : Nat}
    (hi : texts[i]? = some text) (hj : texts[j]? = some text) : i = j := by
  obtain ⟨hlt, -⟩ := List.getElem?_eq_some_iff.mp hi
  exact (List.getElem?_inj hlt h).mp (hi.trans hj.symm)

/-- A collected text has the label of its position. -/
theorem label?_of_getElem? {session : Session} (h : session.texts.Nodup) {text : String}
    {position : Nat} (hget : session.texts[position]? = some text) :
    session.label? text = some (textLabel text position) := by
  have hfound : session.texts.idxOf? text = some position := by
    obtain ⟨hlt, hat⟩ := List.getElem?_eq_some_iff.mp hget
    refine List.idxOf?_eq_some_iff.mpr ⟨hlt, hat, fun other hother hsame => ?_⟩
    have hother' : session.texts[other]? = some text :=
      List.getElem?_eq_some_iff.mpr ⟨Nat.lt_trans hother hlt, hsame⟩
    exact Nat.ne_of_lt hother (position_unique h hother' hget)
  rw [label?, hfound]
  rfl

/-- Two collected texts have one label if they are one text, or if one of them shares
    its label with the other. -/
theorem label?_eq_iff {session : Session} (h : session.texts.Nodup) {a b : String}
    (ha : a ∈ session.texts) (hb : b ∈ session.texts) :
    session.label? a = session.label? b ↔
      a = b ∨ Shares session.texts a b ∨ Shares session.texts b a := by
  obtain ⟨i, hi⟩ := List.mem_iff_getElem?.mp ha
  obtain ⟨j, hj⟩ := List.mem_iff_getElem?.mp hb
  rw [label?_of_getElem? h hi, label?_of_getElem? h hj, Option.some.injEq, textLabel_eq_iff]
  constructor
  · rintro (⟨rfl, -⟩ | hover | hover)
    · exact Or.inl (Option.some.inj (hi.symm.trans hj))
    · exact Or.inr (Or.inl ⟨i, j, hi, hj, hover⟩)
    · exact Or.inr (Or.inr ⟨j, i, hj, hi, hover⟩)
  · rintro (rfl | ⟨k, l, hk, hl, hover⟩ | ⟨l, k, hl, hk, hover⟩)
    · exact Or.inl ⟨position_unique h hi hj, rfl⟩
    · obtain rfl := position_unique h hi hk
      obtain rfl := position_unique h hj hl
      exact Or.inr (Or.inl hover)
    · obtain rfl := position_unique h hi hk
      obtain rfl := position_unique h hj hl
      exact Or.inr (Or.inr hover)

/-- The labels of the finished section, by position. -/
theorem getElem?_labels (session : Session) (functions : List Function) (position : Nat) :
    ((session.finish functions).texts.map TextEntry.label)[position]? =
      session.texts[position]?.map fun text => textLabel text position := by
  simp only [finish, List.getElem?_map, List.getElem?_zipIdx, Option.map_map, Nat.zero_add]
  rfl

/-- Texts whose labels overlap stand at different positions. -/
theorem Overlaps.ne {early late : String × Nat} (h : Overlaps early late) : early.2 ≠ late.2 := by
  obtain ⟨extra, hextra, -, hdigits⟩ := h
  intro heq
  rw [heq] at hdigits
  exact hextra (List.self_eq_append_left.mp hdigits)

/-- The labels of the finished section are different exactly if no text shares its
    label. -/
theorem nodup_labels_iff (session : Session) (functions : List Function) :
    ((session.finish functions).texts.map TextEntry.label).Nodup ↔
      ∀ a b, ¬Shares session.texts a b := by
  -- equal labels at two positions are an overlap of their texts, and the other way round
  constructor
  · rintro hnodup a b ⟨i, j, hi, hj, hover⟩
    have hlabel : textLabel a i = textLabel b j := textLabel_eq_iff.mpr (Or.inr (Or.inl hover))
    have hat := getElem?_labels session functions i
    have hat' := getElem?_labels session functions j
    rw [hi] at hat
    rw [hj] at hat'
    obtain ⟨hlt, -⟩ := List.getElem?_eq_some_iff.mp hat
    refine hover.ne ((List.getElem?_inj hlt hnodup).mp ?_)
    rw [hat, hat']
    exact congrArg some hlabel
  · intro hfree
    refine List.nodup_iff_pairwise_ne.mpr (List.pairwise_iff_getElem.mpr ?_)
    intro i j hi hj hlt hsame
    have hat := (List.getElem?_eq_getElem hi).symm.trans (getElem?_labels session functions i)
    have hat' := (List.getElem?_eq_getElem hj).symm.trans (getElem?_labels session functions j)
    obtain ⟨a, ha, hlabel⟩ := Option.map_eq_some_iff.mp hat.symm
    obtain ⟨b, hb, hlabel'⟩ := Option.map_eq_some_iff.mp hat'.symm
    rcases textLabel_eq_iff.mp (hlabel.trans (hsame.trans hlabel'.symm)) with
      ⟨heq, -⟩ | hover | hover
    · exact Nat.ne_of_lt hlt heq
    · exact hfree a b ⟨i, j, ha, hb, hover⟩
    · exact hfree b a ⟨j, i, hb, ha, hover⟩

/-- **LABELS ARE SHARED ONLY WHERE DIGITS RUN TOGETHER**: for every sequence of
    requests, a text always gets the same label; two different texts have the same
    label exactly if the stem of one of them ends in digits that the position of the
    other one begins with; the labels of the finished section are different exactly
    if that never happens, and it does not where no stem ends in a digit. -/
theorem internAll_labels (requests : List String) (functions : List Function) :
    let result := internAll {} requests
    result.1.map some = requests.map result.2.label? ∧
    (∀ a ∈ requests, ∀ b ∈ requests, result.2.label? a = result.2.label? b ↔
      a = b ∨ Shares result.2.texts a b ∨ Shares result.2.texts b a) ∧
    (((result.2.finish functions).texts.map TextEntry.label).Nodup ↔
      ∀ a b, ¬Shares result.2.texts a b) ∧
    ((∀ text ∈ requests, ∀ c, (stem text).getLast? = some c → c.isDigit = false) →
      ∀ a b, ¬Shares result.2.texts a b) := by
  intro result
  have hnodup : result.2.texts.Nodup := nodup_internAll List.nodup_nil requests
  have hmem : ∀ {text}, text ∈ result.2.texts ↔ text ∈ requests := by
    intro text
    rw [mem_internAll, or_iff_right List.not_mem_nil]
  refine ⟨internAll_label? {} requests, fun a ha b hb => ?_,
    nodup_labels_iff result.2 functions, ?_⟩
  · exact label?_eq_iff hnodup (hmem.mpr ha) (hmem.mpr hb)
  · rintro hstems a b ⟨i, j, hi, -, hover⟩
    obtain ⟨c, hlast, hdigit⟩ := hover.isDigit
    have hrequest : a ∈ requests := hmem.mp (List.mem_of_getElem? hi)
    exact Bool.false_ne_true ((hstems a hrequest c hlast).symm.trans hdigit)

/-- Eleven texts, of which the first one is a digit and the last one has no letters
    or digits. -/
def oneAmongEleven : List String := ["1", "a", "b", "c", "d", "e", "f", "g", "h", "i", "!"]

/-- The digit at position 0 and the text without letters at position 10 share the
    label `s_10`. -/
theorem oneAmongEleven_collides :
    (internAll {} oneAmongEleven).1[0]? = some "s_10" ∧
    (internAll {} oneAmongEleven).1[10]? = some "s_10" ∧
    ¬(((internAll {} oneAmongEleven).2.finish []).texts.map TextEntry.label).Nodup := by
  decide +kernel

end DecafBackend.Session
