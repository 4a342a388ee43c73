import Mathlib.Data.List.Chain
import DecafBackend.Machine.Assembly
import DecafBackend.Proofs.Checked

/-! # Reading literal texts back

    The assembler reads a backquoted text up to the next backquote.  A backslash
    starts an escape: the name of a character, or the octal number of a byte,
    which takes up to three digits, as many as follow.  The number that stands
    for a zero character has one digit, so an octal digit of the text behind it
    is read into the number; everything else is read back as it was.

    * `octalDigits`, `readWithin`, `readQuoted` — the rules of the assembler
    * `DigitFree` — no octal digit follows a zero character
    * `readWithin_escape` — what is read back
    * `render_reads` — the texts in a printed program -/

namespace DecafBackend

/-! ## The rules -/

/-- The value of an octal digit. -/
def octalDigit? (c : Char) : Option Nat :=
  if '0' ≤ c ∧ c ≤ '7' then some (c.toNat - '0'.toNat) else none

/-- The octal digits at the start of a list, at most `count` of them. -/
def octalDigits : Nat → List Char → List Nat
  | count + 1, c :: rest =>
    match octalDigit? c with
    | some digit => digit :: octalDigits count rest
    | none => []
  | _, _ => []

/-- The byte with an octal number. -/
def octalByte (digits : List Nat) : UInt8 :=
  .ofNat (digits.foldl (fun number digit => 8 * number + digit) 0)

/-- The character that a character behind a backslash names. -/
def namedEscape? (c : Char) : Option Char :=
  if c = '\\' ∨ c = backquote then some c
  else if c = 'n' then some '\n'
  else if c = 't' then some '\t'
  else if c = 'r' then some '\r'
  else none

/-- Puts bytes in front of those that were read. -/
def prepend (bytes : List UInt8) :
    Option (List UInt8 × List Char) → Option (List UInt8 × List Char) :=
  Option.map fun (more, after) => (bytes ++ more, after)

/-- Reads a backquoted text from inside it, and gives its bytes and what stands
    behind it.  The first `skip` characters belong to an escape that was read
    already.  A text that a line break ends is refused. -/
def readWithin : Nat → List Char → Option (List UInt8 × List Char)
  | _, [] => none
  | skip + 1, _ :: rest => readWithin skip rest
  | 0, c :: rest =>
    if c = backquote then some ([], rest)
    else if c = '\n' ∨ c = '\r' then none
    else if c = '\\' then
      match octalDigits 3 rest with
      | [] =>
        match rest.head?.bind namedEscape? with
        | some named => prepend (String.utf8EncodeChar named) (readWithin 1 rest)
        | none => none
      | digits => prepend [octalByte digits] (readWithin digits.length rest)
    else prepend (String.utf8EncodeChar c) (readWithin 0 rest)

/-- Reads what stands behind an opening backquote. -/
def readQuoted (chars : List Char) : Option (List UInt8 × List Char) := readWithin 0 chars

/-- The bytes of a text. -/
def textBytes (text : String) : List UInt8 := text.toUTF8.data.toList

/-- The bytes of a text are those of its characters. -/
theorem textBytes_eq (text : String) :
    textBytes text = text.toList.flatMap String.utf8EncodeChar := by
  have hencode : text.toUTF8 = (text.toList.flatMap String.utf8EncodeChar).toByteArray :=
    String.utf8Encode_toList.symm
  rw [textBytes, hencode, List.toList_data_toByteArray]

/-- No octal digit follows a zero character. -/
def DigitFree (chars : List Char) : Prop :=
  chars.IsChain fun c next => c.toNat = 0 → octalDigit? next = none

instance (chars : List Char) : Decidable (DigitFree chars) :=
  inferInstanceAs (Decidable (chars.IsChain _))

/-! ## Single characters -/

/-- How a character is written: as itself, as a named escape, or, if it is the
    zero character, as an octal number of one digit. -/
theorem escapeTextChar_cases (c : Char) :
    (escapeTextChar c = [c] ∧ c.toNat ≠ 0 ∧ c ≠ '\\' ∧ c ≠ backquote ∧ c ≠ '\n' ∧ c ≠ '\r') ∨
    (∃ letter, escapeTextChar c = ['\\', letter] ∧ c.toNat ≠ 0 ∧ octalDigit? c = none ∧
      octalDigit? letter = none ∧ namedEscape? letter = some c) ∨
    (escapeTextChar c = ['\\', '0'] ∧ c.toNat = 0) := by
  rw [escapeTextChar]
  by_cases hbackslash : c = '\\'
  · subst hbackslash
    exact Or.inr (Or.inl ⟨'\\', rfl, by decide, by decide, by decide, by decide⟩)
  by_cases hbackquote : c = backquote
  · subst hbackquote
    exact Or.inr (Or.inl ⟨backquote, rfl, by decide, by decide, by decide, by decide⟩)
  by_cases hnewline : c = '\n'
  · subst hnewline
    exact Or.inr (Or.inl ⟨'n', rfl, by decide, by decide, by decide, by decide⟩)
  by_cases htab : c = '\t'
  · subst htab
    exact Or.inr (Or.inl ⟨'t', rfl, by decide, by decide, by decide, by decide⟩)
  by_cases hreturn : c = '\r'
  · subst hreturn
    exact Or.inr (Or.inl ⟨'r', rfl, by decide, by decide, by decide, by decide⟩)
  simp only [if_neg hbackslash, if_neg hbackquote, if_neg hnewline, if_neg htab, if_neg hreturn]
  by_cases hzero : c.toNat = 0
  · exact Or.inr (Or.inr ⟨if_pos hzero, hzero⟩)
  · exact Or.inl ⟨if_neg hzero, hzero, hbackslash, hbackquote, hnewline, hreturn⟩

theorem length_zero_bytes : (String.utf8EncodeChar (Char.ofNat 0)).length = 1 := rfl

/-- The zero character is the one with the number zero. -/
theorem eq_zero_of_toNat {c : Char} (h : c.toNat = 0) : c = Char.ofNat 0 := by
  rw [← Char.ofNat_toNat c, h]

/-! ## Octal digits -/

/-- Octal digits stand for themselves, and nothing else begins with one. -/
theorem octalDigits_escape (count : Nat) (chars after : List Char) :
    octalDigits count (chars.flatMap escapeTextChar ++ backquote :: after) =
      octalDigits count chars := by
  induction count generalizing chars with
  | zero => rw [octalDigits.eq_def, octalDigits.eq_def]
  | succ count ih =>
      cases chars with
      | nil => rfl
      | cons c rest =>
          rw [List.flatMap_cons, List.append_assoc]
          rcases escapeTextChar_cases c with ⟨heq, -⟩ | ⟨letter, heq, -, hnone, -⟩ | ⟨heq, hzero⟩
          · rw [heq, List.singleton_append, octalDigits, octalDigits, ih]
          · rw [heq, List.cons_append, octalDigits, octalDigits, hnone]
            rfl
          · rw [heq, List.cons_append, octalDigits, octalDigits, eq_zero_of_toNat hzero]
            rfl

/-- Digits that belong to an escape are skipped. -/
theorem readWithin_skip (count : Nat) (chars after : List Char) :
    readWithin (octalDigits count chars).length
        (chars.flatMap escapeTextChar ++ backquote :: after) =
      readWithin 0 ((chars.drop (octalDigits count chars).length).flatMap escapeTextChar ++
        backquote :: after) := by
  -- by induction on the digits; a backslash is no digit, so no escape is among them
  induction count generalizing chars with
  | zero => rw [octalDigits.eq_def]; rfl
  | succ count ih =>
      cases chars with
      | nil => rfl
      | cons c rest =>
          rw [octalDigits]
          cases hdigit : octalDigit? c with
          | none => rfl
          | some digit =>
              rcases escapeTextChar_cases c with
                ⟨heq, -⟩ | ⟨letter, -, -, hnone, -⟩ | ⟨-, hzero⟩
              · rw [List.flatMap_cons, heq]
                exact ih rest
              · rw [hnone] at hdigit
                cases hdigit
              · rw [eq_zero_of_toNat hzero] at hdigit
                cases hdigit

/-- There are octal digits exactly if the first character is one. -/
theorem octalDigits_eq_nil {count : Nat} {chars : List Char} :
    octalDigits (count + 1) chars = [] ↔ ∀ c ∈ chars.head?, octalDigit? c = none := by
  cases chars with
  | nil => exact iff_of_true rfl fun _ h => by cases h
  | cons c rest =>
      rw [octalDigits, List.head?_cons]
      cases hdigit : octalDigit? c with
      | none => exact iff_of_true rfl fun _ h => Option.some.inj h ▸ hdigit
      | some digit =>
          exact iff_of_false (List.cons_ne_nil _ _) fun h => Option.some_ne_none digit
            (hdigit.symm.trans (h c rfl))

/-- There are no more octal digits than characters. -/
theorem length_octalDigits_le (count : Nat) (chars : List Char) :
    (octalDigits count chars).length ≤ chars.length := by
  induction count generalizing chars with
  | zero => rw [octalDigits.eq_def]; exact Nat.zero_le _
  | succ count ih =>
      cases chars with
      | nil => exact Nat.le_refl 0
      | cons c rest =>
          rw [octalDigits]
          cases octalDigit? c with
          | none => exact Nat.zero_le _
          | some digit => exact Nat.succ_le_succ (ih rest)

/-- Each character that is dropped had a byte at least. -/
theorem length_bytes_drop_le {count : Nat} {chars : List Char} (h : count ≤ chars.length) :
    count + ((chars.drop count).flatMap String.utf8EncodeChar).length ≤
      (chars.flatMap String.utf8EncodeChar).length := by
  induction count generalizing chars with
  | zero => rw [List.drop_zero, Nat.zero_add]
  | succ count ih =>
      cases chars with
      | nil => cases h
      | cons c rest =>
          have hrest := ih (Nat.le_of_succ_le_succ h)
          have hsize := c.utf8Size_pos
          rw [List.drop_succ_cons, List.flatMap_cons, List.length_append,
            String.length_utf8EncodeChar]
          omega

/-! ## What is read back -/

/-- What is read back from the escaped form of some characters: at most as many
    bytes as they have, and exactly theirs if no octal digit follows a zero
    character. -/
structure ReadsBack (chars after : List Char) (bytes : List UInt8) : Prop where
  read : readWithin 0 (chars.flatMap escapeTextChar ++ backquote :: after) = some (bytes, after)
  length_le : bytes.length ≤ (chars.flatMap String.utf8EncodeChar).length
  exact_iff : bytes = chars.flatMap String.utf8EncodeChar ↔ DigitFree chars

namespace ReadsBack

variable {c : Char} {chars after : List Char} {bytes : List UInt8}

/-- A character that is not zero, whose escaped form is read as the character. -/
theorem cons (h : ReadsBack chars after bytes) (hzero : c.toNat ≠ 0)
    (hread : ∀ rest, readWithin 0 (escapeTextChar c ++ rest) =
      prepend (String.utf8EncodeChar c) (readWithin 0 rest)) :
    ReadsBack (c :: chars) after (String.utf8EncodeChar c ++ bytes) where
  read := by
    rw [List.flatMap_cons, List.append_assoc, hread, h.read]
    rfl
  length_le := by
    rw [List.flatMap_cons, List.length_append, List.length_append]
    exact Nat.add_le_add_left h.length_le _
  exact_iff := by
    rw [List.flatMap_cons, List.append_cancel_left_eq, h.exact_iff, DigitFree, DigitFree,
      List.isChain_cons]
    exact (and_iff_right fun next _ hnone => absurd hnone hzero).symm

/-- A zero character, with the octal digits that follow it. -/
theorem zero (h : ReadsBack (chars.drop (octalDigits 2 chars).length) after bytes) :
    ReadsBack (Char.ofNat 0 :: chars) after
      (octalByte (0 :: octalDigits 2 chars) :: bytes) where
  read := by
    have hdigits : octalDigits 3 ('0' :: (chars.flatMap escapeTextChar ++ backquote :: after)) =
        0 :: octalDigits 2 chars := by
      rw [← octalDigits_escape 2 chars after]
      rfl
    have hrest := (readWithin_skip 2 chars after).trans h.read
    show readWithin 0 ('\\' :: '0' :: (chars.flatMap escapeTextChar ++ backquote :: after)) = _
    rw [readWithin, if_neg (by decide), if_neg (by decide), if_pos rfl, hdigits]
    show prepend [_] (readWithin (octalDigits 2 chars).length _) = _
    rw [hrest]
    rfl
  length_le := by
    have hdrop := length_bytes_drop_le (length_octalDigits_le 2 chars)
    have hrest := h.length_le
    rw [List.flatMap_cons, List.length_append, length_zero_bytes, List.length_cons]
    omega
  exact_iff := by
    have hdrop := length_bytes_drop_le (length_octalDigits_le 2 chars)
    have hrest := h.length_le
    rw [DigitFree, List.isChain_cons]
    by_cases hdigits : octalDigits 2 chars = []
    · -- the number is zero, and reading goes on right behind it
      rw [hdigits, List.length_nil, List.drop_zero] at h
      rw [hdigits, List.flatMap_cons,
        show String.utf8EncodeChar (Char.ofNat 0) = [octalByte [0]] from rfl,
        List.singleton_append, List.cons.injEq, and_iff_right rfl, h.exact_iff]
      exact (and_iff_right fun c hc _ => octalDigits_eq_nil.mp hdigits c hc).symm
    · -- a digit that was read into the number is missing
      refine iff_of_false (fun heq => ?_) fun hfree => ?_
      · have hlength := congrArg List.length heq
        have hpos := List.length_pos_iff.mpr hdigits
        rw [List.flatMap_cons, List.length_append, length_zero_bytes, List.length_cons] at hlength
        omega
      · exact hdigits (octalDigits_eq_nil.mpr fun c hc => hfree.1 c hc rfl)

end ReadsBack

/-- **TEXTS ARE READ BACK**, up to octal digits behind zero characters. -/
theorem readWithin_escape (chars after : List Char) : ∃ bytes, ReadsBack chars after bytes := by
  -- by induction on the length, as the number of a zero character takes digits along
  induction hlength : chars.length using Nat.strongRecOn generalizing chars with
  | ind n ih =>
      cases chars with
      | nil => exact ⟨[], rfl, Nat.le_refl 0, ⟨fun _ => .nil, fun _ => rfl⟩⟩
      | cons c rest =>
          rw [List.length_cons] at hlength
          obtain ⟨bytes, hbytes⟩ := ih rest.length (by omega) rest rfl
          rcases escapeTextChar_cases c with
            ⟨heq, hzero, hbackslash, hbackquote, hnewline, hreturn⟩ |
            ⟨letter, heq, hzero, -, hnone, hnamed⟩ | ⟨-, hzero⟩
          · refine ⟨_, hbytes.cons hzero fun rest => ?_⟩
            rw [heq, List.singleton_append, readWithin, if_neg hbackquote,
              if_neg (not_or.mpr ⟨hnewline, hreturn⟩), if_neg hbackslash]
          · refine ⟨_, hbytes.cons hzero fun rest => ?_⟩
            have hdigits : octalDigits 3 (letter :: rest) = [] := by rw [octalDigits, hnone]
            rw [heq, List.cons_append, List.singleton_append, readWithin, if_neg (by decide),
              if_neg (by decide), if_pos rfl, hdigits]
            simp only [List.head?_cons, Option.bind_some, hnamed, readWithin]
          · obtain ⟨more, hmore⟩ := ih (rest.drop (octalDigits 2 rest).length).length
              (by rw [List.length_drop]; omega) _ rfl
            exact ⟨_, eq_zero_of_toNat hzero ▸ hmore.zero⟩

/-! ## Printed texts -/

/-- A text is read from the characters behind a backquote, up to what stands
    behind the text: always to its end, and to its own bytes exactly if no octal
    digit follows a zero character. -/
def IsRead (text : String) (chars after : List Char) : Prop :=
  ∃ bytes, readQuoted chars = some (bytes, after) ∧
    (bytes = textBytes text ↔ DigitFree text.toList)

/-- **A QUOTED TEXT IS READ** up to its closing quote. -/
theorem isRead_escapeText (text : String) (after : List Char) :
    IsRead text ((escapeText text).toList ++ backquote :: after) after := by
  obtain ⟨bytes, h⟩ := readWithin_escape text.toList after
  refine ⟨bytes, ?_, ?_⟩
  · rw [escapeText, String.toList_ofList]
    exact h.read
  · rw [textBytes_eq]
    exact h.exact_iff

/-- A member of a list is a part of the joined text. -/
theorem exists_join_map {α : Type} {f : α → String} {a : α} {l : List α} (h : a ∈ l) :
    ∃ front after, String.join (l.map f) = front ++ f a ++ after := by
  obtain ⟨before, rest, rfl⟩ := List.append_of_mem h
  rw [List.map_append, List.map_cons, String.join_append, String.join_cons]
  exact ⟨_, _, String.append_assoc.symm⟩

/-- The line of a text in a printed program. -/
theorem line_of_render {program : Assembly} {out : String} (hout : program.render = .ok out)
    {entry : TextEntry} (hentry : entry ∈ program.texts) : ∃ front after : String,
    out = front ++ (entry.label ++ ":\n    db `" ++ escapeText entry.text ++ "`,0\n") ++ after := by
  rw [Assembly.render] at hout
  obtain ⟨functions, -, hout⟩ := Checked.bind_eq_ok hout
  obtain ⟨front, after, hjoin⟩ := exists_join_map hentry
  rw [hjoin] at hout
  rw [← Checked.pure_eq_ok hout, ← String.append_assoc, ← String.append_assoc,
    @String.append_assoc _ after, @String.append_assoc _ (after ++ _)]
  exact ⟨_, _, rfl⟩

/-- **LITERAL TEXTS ARE READ BACK**, exactly if no octal digit follows a zero
    character: behind the backquote that is written before a text, and behind
    the label and the backquote of its line in a printed program. -/
theorem render_reads (text : String) :
    (∀ after, IsRead text ((escapeText text).toList ++ backquote :: after) after) ∧
    ∀ (program : Assembly) (out : String), program.render = .ok out →
      ∀ label, ⟨label, text⟩ ∈ program.texts → ∃ front behind after,
        out.toList = front ++ (label ++ ":\n    db ").toList ++ backquote :: behind ∧
          IsRead text behind (",0\n".toList ++ after) := by
  refine ⟨isRead_escapeText text, fun program out hout label hentry => ?_⟩
  obtain ⟨front, after, rfl⟩ := line_of_render hout hentry
  refine ⟨front.toList, _, after.toList, ?_, isRead_escapeText text _⟩
  have hopen : ":\n    db `".toList = ":\n    db ".toList ++ [backquote] := by decide
  have hclose : "`,0\n".toList = backquote :: ",0\n".toList := by decide
  simp only [String.toList_append, hopen, hclose, List.append_assoc, List.nil_append,
    List.cons_append]

/-- A program with a text that has every character with an escape. -/
def spelledTexts : Assembly where
  texts := [⟨"s0", "\\`\n\t\r\x00x"⟩]

/-- Its text is read back from its print. -/
theorem spelledTexts_reads : ∃ out, spelledTexts.render = .ok out ∧
    (∃ front behind after,
      out.toList = front ++ ("s0" ++ ":\n    db ").toList ++ backquote :: behind ∧
        readQuoted behind = some (textBytes "\\`\n\t\r\x00x", ",0\n".toList ++ after)) := by
  refine ⟨_, rfl, ?_⟩
  obtain ⟨front, behind, after, hout, bytes, hread, hexact⟩ :=
    (render_reads "\\`\n\t\r\x00x").2 spelledTexts _ rfl "s0" List.mem_cons_self
  exact ⟨front, behind, after, hout, hexact.mpr (by decide) ▸ hread⟩

/-- A digit behind a zero character is read into its number. -/
theorem zeroBeforeDigit_merged :
    readQuoted ((escapeText "\x001").toList ++ [backquote]) = some ([1], []) ∧
      textBytes "\x001" = [0, 49] := by decide

end DecafBackend
