import DecafBackend.IR.Builder
import DecafBackend.Proofs.Execution

/-! # Bodies under construction

    A builder only ever adds to its body, so what a builder has placed runs in
    the finished body as it was placed.

    * `Builder.Grows` — one builder comes later than another
    * `Builder.Tidy` — the current block is the last one, and not empty
    * `Cursor` — the point of the finished body at which a builder goes on
    * `run_append`, `run_label`, `goTo_label` — a statement that is placed at
      the cursor runs, and leads to the cursor behind it -/

namespace DecafBackend

namespace Body

/-! ## Statements of a block -/

/-- A statement goes to the end of its block. -/
theorem stmtsOf_push (body : Body) (inst : Inst) (block other : Block)
    (h : block.index < body.blocks.size) :
    (body.push inst block).stmtsOf other =
      if other = block then body.stmtsOf other ++ [inst] else body.stmtsOf other := by
  have hindex : block.index = other.index ↔ other = block := by
    constructor
    · intro h; cases block; cases other; exact congrArg Key.mk h.symm
    · rintro rfl; rfl
  simp only [stmtsOf, push, Array.getElem?_modify]
  by_cases heq : other = block
  · subst heq
    rw [if_pos rfl, if_pos rfl]
    rw [Array.getElem?_eq_getElem h]
    rfl
  · rw [if_neg (fun h => heq (hindex.mp h)), if_neg heq]

/-- A new block is empty and leaves the others as they are. -/
theorem stmtsOf_newBlock (body : Body) (label : Option Label) (other : Block) :
    (body.newBlock label).2.stmtsOf other = body.stmtsOf other := by
  simp only [stmtsOf, newBlock, Array.getElem?_push]
  by_cases h : other.index = body.blocks.size
  · rw [if_pos h, h, Array.getElem?_eq_none (Nat.le_refl _)]
  · rw [if_neg h]

/-- A block that does not exist has no statements. -/
theorem stmtsOf_eq_nil {body : Body} {block : Block} (h : body.blocks.size ≤ block.index) :
    body.stmtsOf block = [] := by
  rw [stmtsOf, Array.getElem?_eq_none h]

theorem stmtsOf_size (body : Body) : body.stmtsOf ⟨body.blocks.size⟩ = [] :=
  stmtsOf_eq_nil (Nat.le_refl _)

end Body

namespace Builder

/-! ## Growth -/

/-- One builder comes later than another: nothing that was there is gone, and
    only the current block has got more statements. -/
structure Grows (early late : Builder) : Prop where
  records : ∀ {i : Nat} {r : Record},
    early.body.records[i]? = some r → late.body.records[i]? = some r
  locations : ∀ {i : Nat} {l : Location},
    early.body.locations[i]? = some l → late.body.locations[i]? = some l
  labels : ∀ {i : Nat} {b : Block},
    early.body.labels[i]? = some (some b) → late.body.labels[i]? = some (some b)
  labelCount : early.body.labels.size ≤ late.body.labels.size
  blockCount : early.body.blocks.size ≤ late.body.blocks.size
  current : ∀ block, early.current = some block →
    early.body.stmtsOf block <+: late.body.stmtsOf block
  closed : ∀ block, block.index < early.body.blocks.size → early.current ≠ some block →
    late.body.stmtsOf block = early.body.stmtsOf block ∧ late.current ≠ some block

/-- The current block is the last one. -/
def AtEnd (builder : Builder) : Prop :=
  ∀ block, builder.current = some block → block.index + 1 = builder.body.blocks.size

/-- The current block is the last one, and it is not empty. -/
structure Tidy (builder : Builder) : Prop where
  atEnd : builder.AtEnd
  nonempty : ∀ block, builder.current = some block → builder.body.stmtsOf block ≠ []

namespace Grows

/-- A builder has grown out of itself. -/
theorem refl (builder : Builder) : Grows builder builder where
  records h := h
  locations h := h
  labels h := h
  labelCount := Nat.le_refl _
  blockCount := Nat.le_refl _
  current _ _ := List.prefix_rfl
  closed _ _ h := ⟨rfl, h⟩

/-- What grows goes on growing. -/
theorem trans {a b c : Builder} (h₁ : Grows a b) (h₂ : Grows b c) : Grows a c where
  records h := h₂.records (h₁.records h)
  locations h := h₂.locations (h₁.locations h)
  labels h := h₂.labels (h₁.labels h)
  labelCount := Nat.le_trans h₁.labelCount h₂.labelCount
  blockCount := Nat.le_trans h₁.blockCount h₂.blockCount
  current block hcur := by
    have hpre := h₁.current block hcur
    by_cases hb : b.current = some block
    · exact hpre.trans (h₂.current block hb)
    · by_cases hlt : block.index < b.body.blocks.size
      · rw [(h₂.closed block hlt hb).1]
        exact hpre
      · rw [Body.stmtsOf_eq_nil (Nat.le_of_not_lt hlt)] at hpre
        rw [List.prefix_nil.mp hpre]
        exact List.nil_prefix
  closed block hlt hcur := by
    obtain ⟨hsame, hb⟩ := h₁.closed block hlt hcur
    obtain ⟨hsame', hc⟩ := h₂.closed block (Nat.lt_of_lt_of_le hlt h₁.blockCount) hb
    exact ⟨hsame'.trans hsame, hc⟩

/-- Locations are never taken away. -/
theorem locationCount {a b : Builder} (h : Grows a b) :
    a.body.locations.size ≤ b.body.locations.size := by
  refine Nat.le_of_not_lt fun hlt => ?_
  have hlast := h.locations (Array.getElem?_eq_getElem hlt)
  rw [Array.getElem?_eq_none (Nat.le_refl _)] at hlast
  cases hlast

end Grows

/-- A step of a builder that changes no block. -/
theorem grows_of_blocks {early late : Builder} (hblocks : late.body.blocks = early.body.blocks)
    (hlabels : late.body.labels = early.body.labels)
    (hcurrent : late.current = early.current)
    (hrecords : ∀ {i : Nat} {r : Record},
      early.body.records[i]? = some r → late.body.records[i]? = some r)
    (hlocations : ∀ {i : Nat} {l : Location},
      early.body.locations[i]? = some l → late.body.locations[i]? = some l) :
    Grows early late where
  records := hrecords
  locations := hlocations
  labels h := by rw [hlabels]; exact h
  labelCount := Nat.le_of_eq (by rw [hlabels])
  blockCount := Nat.le_of_eq (by rw [hblocks])
  current block _ := Body.stmtsOf_congr hblocks block ▸ List.prefix_rfl
  closed block _ hcur := by
    rw [Body.stmtsOf_congr hblocks, hcurrent]
    exact ⟨rfl, hcur⟩

/-- What is in an array stays in place when something is added. -/
theorem getElem?_push_of_some {α : Type} {xs : Array α} {x y : α} {i : Nat}
    (h : xs[i]? = some y) : (xs.push x)[i]? = some y := by
  obtain ⟨hlt, -⟩ := Array.getElem?_eq_some_iff.mp h
  rw [Array.getElem?_push, if_neg (by omega)]
  exact h

/-- To create a record grows the body. -/
theorem grows_create (builder : Builder) (record : Record) :
    Grows builder (builder.create record).2 :=
  grows_of_blocks rfl rfl rfl getElem?_push_of_some id

/-- To make a local variable grows the body. -/
theorem grows_localVar (builder : Builder) (name : Symbol) :
    Grows builder (builder.localVar name).2 :=
  grows_of_blocks rfl rfl rfl id getElem?_push_of_some

/-- To intern a location grows the body. -/
theorem grows_intern (builder : Builder) (location : Location) :
    Grows builder (builder.intern location).2 := by
  simp only [intern, Body.intern]
  cases builder.body.locations.findIdx? (· == location) with
  | some index => exact Grows.refl builder
  | none => exact grows_of_blocks rfl rfl rfl id getElem?_push_of_some

/-- To make a label grows the body. -/
theorem grows_newLabel (builder : Builder) : Grows builder builder.newLabel.2 where
  records h := h
  locations h := h
  labels h := getElem?_push_of_some h
  labelCount := by
    show _ ≤ (builder.body.labels.push none).size
    rw [Array.size_push]
    exact Nat.le_succ _
  blockCount := Nat.le_refl _
  current _ _ := List.prefix_rfl
  closed _ _ h := ⟨rfl, h⟩

/-! ## Placing statements -/

/-- The block that takes the next statement. -/
def cursorBlock (builder : Builder) : Block := builder.current.getD ⟨builder.body.blocks.size⟩

/-- The number of blocks after a placement. -/
theorem place_blockCount (builder : Builder) (inst : Inst) (ends : Bool) :
    (builder.place inst ends).body.blocks.size =
      if builder.current.isSome then builder.body.blocks.size
      else builder.body.blocks.size + 1 := by
  cases hcur : builder.current with
  | some block => simp [place, hcur, Body.push]
  | none => simp [place, hcur, Body.push, Body.newBlock]

/-- Behind a placed statement the block of the cursor is current, unless it is ended. -/
theorem place_current (builder : Builder) (inst : Inst) (ends : Bool) :
    (builder.place inst ends).current = if ends then none else some builder.cursorBlock := by
  cases hcur : builder.current with
  | some block => simp [place, hcur, cursorBlock]
  | none => simp [place, hcur, cursorBlock, Body.newBlock]

theorem place_records (builder : Builder) (inst : Inst) (ends : Bool) :
    (builder.place inst ends).body.records = builder.body.records := by
  cases hcur : builder.current with
  | some block => simp [place, hcur, Body.push]
  | none => simp [place, hcur, Body.push, Body.newBlock]

theorem place_locations (builder : Builder) (inst : Inst) (ends : Bool) :
    (builder.place inst ends).body.locations = builder.body.locations := by
  cases hcur : builder.current with
  | some block => simp [place, hcur, Body.push]
  | none => simp [place, hcur, Body.push, Body.newBlock]

theorem place_labels (builder : Builder) (inst : Inst) (ends : Bool) :
    (builder.place inst ends).body.labels = builder.body.labels := by
  cases hcur : builder.current with
  | some block => simp [place, hcur, Body.push]
  | none => simp [place, hcur, Body.push, Body.newBlock]

/-- A statement is placed at the end of the block of the cursor. -/
theorem place_stmtsOf {builder : Builder} (hend : builder.AtEnd) (inst : Inst) (ends : Bool)
    (block : Block) :
    (builder.place inst ends).body.stmtsOf block =
      if block = builder.cursorBlock then builder.body.stmtsOf block ++ [inst]
      else builder.body.stmtsOf block := by
  cases hcur : builder.current with
  | some current =>
      have hlt : current.index < builder.body.blocks.size := by
        have := hend current hcur
        omega
      simp only [place, hcur, cursorBlock, Option.getD_some]
      exact Body.stmtsOf_push _ _ _ _ hlt
  | none =>
      simp only [place, hcur, cursorBlock, Option.getD_none]
      rw [Body.stmtsOf_push]
      · rw [Body.stmtsOf_newBlock]
        rfl
      · simp [Body.newBlock]

/-- A placed statement is the last one of the body. -/
theorem place_lastStmt? {builder : Builder} (hend : builder.AtEnd) (inst : Inst) (ends : Bool) :
    (builder.place inst ends).body.lastStmt? = some inst := by
  have hback : ∀ {body : Body} {block : Block}, block.index + 1 = body.blocks.size →
      (body.push inst block).lastStmt? = some inst := by
    intro body block hlast
    have hlt : block.index < body.blocks.size := by omega
    have hindex : body.blocks.size - 1 = block.index := by omega
    simp only [Body.lastStmt?, Body.push, Array.back?, Array.size_modify, hindex,
      Array.getElem?_modify, if_pos, Array.getElem?_eq_getElem hlt]
    exact List.getLast?_concat
  cases hcur : builder.current with
  | some current =>
      simp only [place, hcur]
      exact hback (hend current hcur)
  | none =>
      simp only [place, hcur]
      exact hback (by simp [Body.newBlock])

/-- A builder that has just placed a statement is tidy. -/
theorem tidy_place {builder : Builder} (hend : builder.AtEnd) (inst : Inst) (ends : Bool) :
    (builder.place inst ends).Tidy := by
  constructor
  · intro block hblock
    rw [place_current] at hblock
    cases ends with
    | true => cases hblock
    | false =>
        cases hblock
        rw [place_blockCount]
        cases hcur : builder.current with
        | some current =>
            rw [cursorBlock, hcur]
            exact hend current hcur
        | none =>
            rw [cursorBlock, hcur]
            rfl
  · intro block hblock
    rw [place_current] at hblock
    cases ends with
    | true => cases hblock
    | false =>
        cases hblock
        rw [place_stmtsOf hend, if_pos rfl]
        simp

/-- To place a statement grows the body. -/
theorem grows_place {builder : Builder} (hend : builder.AtEnd) (inst : Inst) (ends : Bool) :
    Grows builder (builder.place inst ends) where
  records h := by rw [place_records]; exact h
  locations h := by rw [place_locations]; exact h
  labels h := by rw [place_labels]; exact h
  labelCount := Nat.le_of_eq (by rw [place_labels])
  blockCount := by
    rw [place_blockCount]
    split <;> omega
  current block hcur := by
    rw [place_stmtsOf hend]
    split
    · exact List.prefix_append _ _
    · exact List.prefix_rfl
  -- only the block of the cursor gets a statement, and it was open or is new
  closed block hlt hcur := by
    have hne : block ≠ builder.cursorBlock := by
      rintro rfl
      cases hb : builder.current with
      | some current => exact hcur (by rw [cursorBlock, hb]; rfl)
      | none =>
          rw [cursorBlock, hb] at hlt
          exact Nat.lt_irrefl _ hlt
    rw [place_stmtsOf hend, if_neg hne, place_current]
    refine ⟨rfl, ?_⟩
    split
    · exact nofun
    · exact fun h => hne (Option.some.inj h).symm

theorem atEnd_create {builder : Builder} (hend : builder.AtEnd) (record : Record) :
    (builder.create record).2.AtEnd := hend

/-- A builder that has appended a statement is tidy. -/
theorem tidy_append {builder : Builder} (hend : builder.AtEnd) (record : Record) :
    (builder.append record).2.Tidy :=
  tidy_place (atEnd_create hend record) _ _

/-- To append a statement grows the body. -/
theorem grows_append {builder : Builder} (hend : builder.AtEnd) (record : Record) :
    Grows builder (builder.append record).2 :=
  (grows_create builder record).trans (grows_place (atEnd_create hend record) _ _)

theorem append_labels (builder : Builder) (record : Record) :
    (builder.append record).2.body.labels = builder.body.labels :=
  place_labels _ _ _

/-! ## Placing labels -/

/-- The builder in a new block for a label. -/
def atNewBlock (builder : Builder) (label : Label) : Builder :=
  { body := (builder.body.newBlock (some label)).2
    current := some (builder.body.newBlock (some label)).1 }

/-- A tidy builder has no empty block open. -/
theorem openBlock?_eq_none {builder : Builder} (htidy : builder.Tidy) :
    builder.openBlock? = none := by
  cases hcur : builder.current with
  | none => simp [openBlock?, hcur]
  | some block =>
      have hne := htidy.nonempty block hcur
      simp only [openBlock?, hcur, bind, Option.bind]
      cases hb : builder.body.blocks[block.index]? with
      | none => rfl
      | some basic =>
          have hstmts : builder.body.stmtsOf block = basic.stmts := by rw [Body.stmtsOf, hb]
          rw [hstmts] at hne
          have hempty : basic.stmts.isEmpty = false := by
            cases hs : basic.stmts with
            | nil => exact absurd hs hne
            | cons _ _ => rfl
          simp [hempty]

/-- In a tidy builder a label opens a new block. -/
theorem label_eq {builder : Builder} (htidy : builder.Tidy) (label : Label) :
    builder.label label = (builder.atNewBlock label).append (.label label) := by
  rw [Builder.label, openBlock?_eq_none htidy]
  rfl

/-- A new block is the last one. -/
theorem atEnd_atNewBlock (builder : Builder) (label : Label) :
    (builder.atNewBlock label).AtEnd := by
  intro block hblock
  cases hblock
  simp [atNewBlock, Body.newBlock]

/-- A builder that has placed a label is tidy. -/
theorem tidy_label {builder : Builder} (htidy : builder.Tidy) (label : Label) :
    (builder.label label).2.Tidy := by
  rw [label_eq htidy]
  exact tidy_append (atEnd_atNewBlock builder label) _

/-- The label of a new block stands for it, and the others stay. -/
theorem atNewBlock_labels (builder : Builder) (label : Label) (i : Nat) :
    (builder.atNewBlock label).body.labels[i]? =
      if label.index = i ∧ i < builder.body.labels.size then some (some ⟨builder.body.blocks.size⟩)
      else builder.body.labels[i]? := by
  show (builder.body.labels.setIfInBounds label.index _)[i]? = _
  rw [Array.getElem?_setIfInBounds]
  by_cases h : label.index = i
  · subst h
    by_cases hlt : label.index < builder.body.labels.size
    · rw [if_pos rfl, if_pos hlt, if_pos ⟨rfl, hlt⟩]
    · rw [if_pos rfl, if_neg hlt, if_neg (fun h => hlt h.2),
        Array.getElem?_eq_none (Nat.le_of_not_lt hlt)]
  · rw [if_neg h, if_neg (fun h' => h h'.1)]

/-- To open a block for a label grows the body if the label has no place yet. -/
theorem grows_atNewBlock {builder : Builder} {label : Label}
    (hunplaced : builder.body.labels[label.index]? = some none) :
    Grows builder (builder.atNewBlock label) where
  records h := h
  locations h := h
  labels {i b} h := by
    rw [atNewBlock_labels, if_neg]
    · exact h
    · rintro ⟨rfl, -⟩
      rw [hunplaced] at h
      cases h
  labelCount := by
    show _ ≤ (builder.body.labels.setIfInBounds _ _).size
    exact Nat.le_of_eq Array.size_setIfInBounds.symm
  blockCount := by simp [atNewBlock, Body.newBlock]
  current block _ := by
    show _ <+: ((builder.body.newBlock (some label)).2).stmtsOf block
    exact Body.stmtsOf_newBlock _ _ _ ▸ List.prefix_rfl
  closed block hlt _ := by
    refine ⟨Body.stmtsOf_newBlock _ _ _, ?_⟩
    intro h
    have hindex : builder.body.blocks.size = block.index :=
      congrArg Key.index (Option.some.inj h)
    omega

/-- To place a label grows the body. -/
theorem grows_label {builder : Builder} (htidy : builder.Tidy) {label : Label}
    (hunplaced : builder.body.labels[label.index]? = some none) :
    Grows builder (builder.label label).2 := by
  rw [label_eq htidy]
  exact (grows_atNewBlock hunplaced).trans (grows_append (atEnd_atNewBlock builder label) _)

/-- A label that is placed stands for the new block. -/
theorem label_labels {builder : Builder} (htidy : builder.Tidy) (label : Label) (i : Nat) :
    (builder.label label).2.body.labels[i]? =
      if label.index = i ∧ i < builder.body.labels.size then some (some ⟨builder.body.blocks.size⟩)
      else builder.body.labels[i]? := by
  rw [label_eq htidy, append_labels, atNewBlock_labels]

theorem label_records {builder : Builder} (htidy : builder.Tidy) (label : Label) :
    (builder.label label).2.body.records = builder.body.records.push (.label label) := by
  rw [label_eq htidy]
  exact place_records _ _ _

theorem label_locations {builder : Builder} (htidy : builder.Tidy) (label : Label) :
    (builder.label label).2.body.locations = builder.body.locations := by
  rw [label_eq htidy]
  exact place_locations _ _ _

theorem label_current {builder : Builder} (htidy : builder.Tidy) (label : Label) :
    (builder.label label).2.current = some ⟨builder.body.blocks.size⟩ := by
  rw [label_eq htidy]
  exact place_current _ _ _

theorem label_blockCount {builder : Builder} (htidy : builder.Tidy) (label : Label) :
    (builder.label label).2.body.blocks.size = builder.body.blocks.size + 1 := by
  rw [label_eq htidy]
  exact (place_blockCount _ _ _).trans (Array.size_push _)

/-- A label is the only statement of a new block. -/
theorem label_stmtsOf {builder : Builder} (htidy : builder.Tidy) (label : Label) (block : Block) :
    (builder.label label).2.body.stmtsOf block =
      if block = ⟨builder.body.blocks.size⟩ then [⟨builder.body.records.size⟩]
      else builder.body.stmtsOf block := by
  have hcreated : ((builder.atNewBlock label).create (.label label)).2.body.stmtsOf block =
      builder.body.stmtsOf block := Body.stmtsOf_newBlock builder.body (some label) block
  rw [label_eq htidy]
  refine (place_stmtsOf (atEnd_create (atEnd_atNewBlock builder label) _) _ _ block).trans ?_
  rw [hcreated]
  show (if block = ⟨builder.body.blocks.size⟩ then _ else _) = _
  split
  · next heq =>
      rw [heq, Body.stmtsOf_size]
      rfl
  · rfl

end Builder

/-! ## Running what was placed -/

/-- Control does not stop or turn away at a statement, if there is one. -/
def Body.FallsThrough (body : Body) (stmt : Option Inst) : Prop :=
  ∀ inst record, stmt = some inst → body.records[inst.index]? = some record →
    record.isTerminator = false

/-- The point of a finished body at which a builder places its next
    statement.  Without a current block this is the start of the next block,
    or the end of the last one; control gets there only if it falls through
    the last statement. -/
def Cursor (body : Body) (builder : Builder) (block : Block) (rest : List Inst) : Prop :=
  match builder.current with
  | some current => block = current ∧ body.stmtsOf current = builder.body.stmtsOf current ++ rest
  | none =>
    body.FallsThrough builder.body.lastStmt? ∧
      ((block = ⟨builder.body.blocks.size⟩ ∧ rest = body.stmtsOf block) ∨
        (block.index + 1 = builder.body.blocks.size ∧ rest = []))

namespace Cursor

variable (setting : Setting) {builder final : Builder}

/-- Steps that change no location leave the cursor where it is. -/
theorem congr {body : Body} {early late : Builder} (hblocks : late.body.blocks = early.body.blocks)
    (hcurrent : late.current = early.current) {block : Block} {rest : List Inst}
    (h : Cursor body early block rest) : Cursor body late block rest := by
  rw [Cursor] at h ⊢
  rw [hcurrent]
  cases hcur : early.current with
  | some current =>
      rw [hcur] at h
      dsimp only at h ⊢
      rw [Body.stmtsOf_congr hblocks]
      exact h
  | none =>
      rw [hcur] at h
      dsimp only at h ⊢
      rw [Body.lastStmt?, hblocks]
      exact h

/-- Control comes to a placed statement. -/
theorem run_place {inst : Inst} {ends : Bool} (hend : builder.AtEnd)
    (hgrows : Builder.Grows (builder.place inst ends) final) (config : Config)
    (hcursor : Cursor final.body builder config.block config.rest) :
    ∃ n block rest, (final.body.execution setting).run n config =
        .going { config with block, rest := inst :: rest } ∧
      (final.body.FallsThrough (some inst) →
        Cursor final.body (builder.place inst ends) block rest) := by
  -- the statements of the cursor's block in the finished body
  obtain ⟨rest, hstmts, hclosed⟩ : ∃ rest, final.body.stmtsOf builder.cursorBlock =
      builder.body.stmtsOf builder.cursorBlock ++ inst :: rest ∧ (ends = true → rest = []) := by
    have hplaced := Builder.place_stmtsOf hend inst ends builder.cursorBlock
    rw [if_pos rfl] at hplaced
    cases ends with
    | false =>
        have hpre := hgrows.current builder.cursorBlock (Builder.place_current _ _ _)
        obtain ⟨rest, hrest⟩ := hpre
        rw [hplaced, List.append_assoc] at hrest
        exact ⟨rest, hrest.symm, nofun⟩
    | true =>
        have hlt : builder.cursorBlock.index < (builder.place inst true).body.blocks.size := by
          rw [Builder.place_blockCount, Builder.cursorBlock]
          cases hcur : builder.current with
          | some current =>
              have := hend current hcur
              simp only [Option.getD_some, Option.isSome_some, if_true]
              omega
          | none => simp
        have hsame := (hgrows.closed builder.cursorBlock hlt
          (by rw [Builder.place_current]; exact nofun)).1
        rw [hplaced] at hsame
        exact ⟨[], hsame, fun _ => rfl⟩
  -- the point behind the statement is where the builder goes on, unless the statement jumps
  have hnext : final.body.FallsThrough (some inst) →
      Cursor final.body (builder.place inst ends) builder.cursorBlock rest := by
    intro hfalls
    rw [Cursor, Builder.place_current]
    cases ends with
    | false =>
        refine ⟨rfl, ?_⟩
        rw [Builder.place_stmtsOf hend, if_pos rfl, List.append_assoc]
        exact hstmts
    | true =>
        refine ⟨by rw [Builder.place_lastStmt? hend]; exact hfalls, Or.inr ⟨?_, hclosed rfl⟩⟩
        rw [Builder.place_blockCount, Builder.cursorBlock]
        cases hcur : builder.current with
        | some current => exact hend current hcur
        | none => rfl
  -- control is at the statement already, or falls into the block it opens
  rw [Cursor] at hcursor
  cases hcur : builder.current with
  | some current =>
      rw [hcur] at hcursor
      obtain ⟨hblock, hrest⟩ := hcursor
      have hcb : builder.cursorBlock = current := by rw [Builder.cursorBlock, hcur]; rfl
      rw [hcb] at hstmts hnext
      have heq : config.rest = inst :: rest := List.append_cancel_left (hrest.symm.trans hstmts)
      refine ⟨0, current, rest, ?_, hnext⟩
      rw [System.run_zero, ← hblock, ← heq]
  | none =>
      rw [hcur] at hcursor
      have hcb : builder.cursorBlock = ⟨builder.body.blocks.size⟩ := by
        rw [Builder.cursorBlock, hcur]; rfl
      rw [hcb] at hstmts hnext
      rw [Body.stmtsOf_size, List.nil_append] at hstmts
      rcases hcursor.2 with ⟨hblock, hrest⟩ | ⟨hblock, hrest⟩
      · refine ⟨0, _, rest, ?_, hnext⟩
        rw [System.run_zero, ← hstmts, ← hblock, ← hrest]
      · refine ⟨1, _, rest, ?_, hnext⟩
        have hlt : config.block.index + 1 < final.body.blocks.size := by
          have h1 := hgrows.blockCount
          rw [Builder.place_blockCount, hcur, if_neg (by simp)] at h1
          omega
        rw [System.run_one]
        show final.body.stepFrom setting config = _
        rw [Body.stepFrom_nil hrest, Body.leave, Body.next?, if_pos hlt, hblock]
        simp only [Body.enter, hstmts]

/-- **PLACED STATEMENTS RUN**: from the cursor, control runs an appended
    statement, with the cursor behind it as the point to go on from. -/
theorem run_append {record : Record} (hend : builder.AtEnd)
    (hgrows : Builder.Grows (builder.append record).2 final) (config : Config)
    (hcursor : Cursor final.body builder config.block config.rest) :
    ∃ n block rest, (final.body.execution setting).run (n + 1) config =
        final.body.stepOver setting { config with block, rest } record ∧
      (record.isTerminator = false → Cursor final.body (builder.append record).2 block rest) := by
  have hcursor' : Cursor final.body (builder.create record).2 config.block config.rest :=
    congr rfl rfl hcursor
  obtain ⟨n, block, rest, hrun, hnext⟩ :=
    run_place setting (Builder.atEnd_create hend record) hgrows config hcursor'
  have hrecord : final.body.records[(builder.create record).1.index]? = some record := by
    refine hgrows.records ?_
    show ((builder.create record).2.place _ _).body.records[_]? = _
    rw [Builder.place_records]
    show (builder.body.records.push record)[builder.body.records.size]? = _
    rw [Array.getElem?_push, if_pos rfl]
  refine ⟨n, block, rest, ?_, fun hfalls => hnext ?_⟩
  · rw [System.run_add hrun, System.run_one]
    show final.body.stepFrom setting { config with block, rest := _ :: rest } = _
    rw [Body.stepFrom_cons rfl hrecord]
  · rintro inst record' ⟨⟩ hrecord'
    cases hrecord.symm.trans hrecord'
    exact hfalls

/-- The start of the block that a label gets. -/
theorem atNewBlock (body : Body) (builder : Builder) (label : Label) :
    Cursor body (builder.atNewBlock label) ⟨builder.body.blocks.size⟩
      (body.stmtsOf ⟨builder.body.blocks.size⟩) := by
  refine ⟨rfl, ?_⟩
  have hempty : (builder.atNewBlock label).body.stmtsOf ⟨builder.body.blocks.size⟩ = [] :=
    (Body.stmtsOf_newBlock _ _ _).trans (Body.stmtsOf_size _)
  show body.stmtsOf ⟨builder.body.blocks.size⟩ =
    (builder.atNewBlock label).body.stmtsOf ⟨builder.body.blocks.size⟩ ++ _
  rw [hempty]
  rfl

/-- Control that comes to a label goes on behind it. -/
theorem run_label {label : Label} (htidy : builder.Tidy)
    (hgrows : Builder.Grows (builder.label label).2 final) (config : Config)
    (hcursor : Cursor final.body builder config.block config.rest) :
    ∃ n block rest, (final.body.execution setting).run (n + 1) config =
        .going { config with block, rest } ∧
      Cursor final.body (builder.label label).2 block rest := by
  rw [Builder.label_eq htidy] at hgrows ⊢
  have hend := Builder.atEnd_atNewBlock builder label
  have hgrowsNew := (Builder.grows_append hend (.label label)).trans hgrows
  -- control comes to the start of the new block
  obtain ⟨m, hm⟩ : ∃ m, (final.body.execution setting).run m config =
      .going (final.body.enter config ⟨builder.body.blocks.size⟩) := by
    have hleave : config.block.index + 1 = builder.body.blocks.size → config.rest = [] →
        (final.body.execution setting).run 1 config =
          .going (final.body.enter config ⟨builder.body.blocks.size⟩) := by
      intro hblock hrest
      have hlt : config.block.index + 1 < final.body.blocks.size := by
        have h1 := hgrowsNew.blockCount
        have h2 : (builder.atNewBlock label).body.blocks.size = builder.body.blocks.size + 1 := by
          simp [Builder.atNewBlock, Body.newBlock]
        omega
      rw [System.run_one]
      show final.body.stepFrom setting config = _
      rw [Body.stepFrom_nil hrest, Body.leave, Body.next?, if_pos hlt, hblock]
    rw [Cursor] at hcursor
    cases hcur : builder.current with
    | some current =>
        rw [hcur] at hcursor
        obtain ⟨hblock, hrest⟩ := hcursor
        have hlast := htidy.atEnd current hcur
        -- the label closes the current block
        have hclosed : final.body.stmtsOf current = builder.body.stmtsOf current := by
          have hne : (builder.atNewBlock label).current ≠ some current := by
            intro h
            have : builder.body.blocks.size = current.index :=
              congrArg Key.index (Option.some.inj h)
            omega
          have hlt : current.index < (builder.atNewBlock label).body.blocks.size := by
            simp only [Builder.atNewBlock, Body.newBlock, Array.size_push]
            omega
          rw [(hgrowsNew.closed current hlt hne).1]
          exact Body.stmtsOf_newBlock _ _ _
        rw [hclosed] at hrest
        have hnil : config.rest = [] := List.self_eq_append_right.mp hrest
        exact ⟨1, hleave (by rw [hblock]; exact hlast) hnil⟩
    | none =>
        rw [hcur] at hcursor
        rcases hcursor.2 with ⟨hblock, hrest⟩ | ⟨hblock, hrest⟩
        · refine ⟨0, ?_⟩
          rw [System.run_zero, Body.enter, ← hblock, ← hrest]
        · exact ⟨1, hleave hblock hrest⟩
  obtain ⟨n, block, rest, hrun, hnext⟩ :=
    run_append setting hend hgrows (final.body.enter config ⟨builder.body.blocks.size⟩)
      (atNewBlock final.body builder label)
  refine ⟨m + n, block, rest, ?_, hnext rfl⟩
  rw [Nat.add_assoc, System.run_add hm, hrun]
  rfl

/-- Control that jumps to a label goes on behind it. -/
theorem goTo_label {label : Label} (htidy : builder.Tidy)
    (hunplaced : builder.body.labels[label.index]? = some none)
    (hgrows : Builder.Grows (builder.label label).2 final) (config : Config) :
    ∃ start n block rest, final.body.goTo config label = .going start ∧
      (final.body.execution setting).run (n + 1) start = .going { config with block, rest } ∧
      Cursor final.body (builder.label label).2 block rest := by
  have hlt : label.index < builder.body.labels.size := by
    obtain ⟨hlt, -⟩ := Array.getElem?_eq_some_iff.mp hunplaced
    exact hlt
  have hplaced : final.body.labels[label.index]? = some (some ⟨builder.body.blocks.size⟩) := by
    refine hgrows.labels ?_
    rw [Builder.label_labels htidy, if_pos ⟨rfl, hlt⟩]
  refine ⟨final.body.enter config ⟨builder.body.blocks.size⟩, ?_⟩
  rw [Builder.label_eq htidy] at hgrows ⊢
  obtain ⟨n, block, rest, hrun, hnext⟩ :=
    run_append setting (Builder.atEnd_atNewBlock builder label) hgrows
      (final.body.enter config ⟨builder.body.blocks.size⟩) (atNewBlock final.body builder label)
  refine ⟨n, block, rest, ?_, ?_, hnext rfl⟩
  · rw [Body.goTo, hplaced]
  · rw [hrun]
    rfl

end Cursor

end DecafBackend
