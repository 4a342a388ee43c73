import DecafBackend.Proofs.Initialization
import DecafBackend.Proofs.SoundBuilders

/-! # Builders that assign before they read

    While a body is built, some locations are known to be assigned wherever control
    comes to the end, and others wherever it comes to a label, placed or not.  What
    is known at the start of each block carries this through every step: a statement
    reads what is known in front of it only, and control goes only where no more is
    known.

    * `Knowledge`, `Command.Covered`, `Builder.Assigns` — what is known, and where
    * `Assigns.extended`, `Assigns.place`, `Assigns.label` — the steps of a builder
    * `Assigns.initialized` — a body that is built is initialized -/

namespace DecafBackend

/-- The locations that are assigned wherever control comes to a label, and wherever
    it comes to the end of what is built. -/
structure Knowledge where
  atLabel : Label → Set Loc
  here : Set Loc

/-- What is known behind a command. -/
def Knowledge.behind (known : Knowledge) (command : Command) : Knowledge :=
  { known with here := {loc | loc ∈ known.here ∨ command.dest? = some loc} }

/-- What is known where a label is placed. -/
def Knowledge.from (known : Knowledge) (label : Label) : Knowledge :=
  { known with here := known.atLabel label }

/-- A command reads assigned locations only, and goes only where these are enough. -/
structure Command.Covered (body : Body) (known : Knowledge) (assigned : Set Loc) (stmt : Inst)
    (command : Command) : Prop where
  reads : ∀ access ∈ command.reads stmt, body.tracks access.loc = true → access.loc ∈ assigned
  target : ∀ label, command.target? = some label → known.atLabel label ⊆ assigned

namespace Builder

/-- Control does not stop or turn away at the end of a block. -/
def Falls (builder : Builder) (block : Block) : Prop :=
  ∀ stmt command, (builder.body.stmtsOf block).getLast? = some stmt →
    builder.body.command? stmt = some command → command.isTerminator = false

/-- What is known at the start of each block suffices for all statements.  The block
    behind the last one counts as well while there is no current block. -/
structure Assigns (builder : Builder) (known : Knowledge) (entering : Block → Set Loc) : Prop where
  entry : entering ⟨0⟩ = ∅
  stmts : ∀ {block before stmt after command},
    builder.body.stmtsOf block = before ++ stmt :: after →
    builder.body.command? stmt = some command →
      command.Covered builder.body known (entering block ∪ builder.body.savedBy before) stmt
  labels : ∀ {label : Label} {block : Block},
    builder.body.labels[label.index]? = some (some block) → entering block ⊆ known.atLabel label
  falls : ∀ {block : Block}, block.index < builder.body.blocks.size →
    builder.current ≠ some block → builder.Falls block →
      entering ⟨block.index + 1⟩ ⊆
        entering block ∪ builder.body.savedBy (builder.body.stmtsOf block)
  here : known.here ⊆ entering builder.cursorBlock ∪
    builder.body.savedBy (builder.body.stmtsOf builder.cursorBlock)

namespace Assigns

variable {bound : Nat} {early late : Builder} {known : Knowledge} {entering : Block → Set Loc}

/-- Later, the same statements save at least as much. -/
theorem savedBy_mono (hretains : Retains early late) (stmts : List Inst) :
    early.body.savedBy stmts ⊆ late.body.savedBy stmts := by
  rintro loc ⟨stmt, hstmt, value, hsave⟩
  exact ⟨stmt, hstmt, value, hretains.command? hsave⟩

/-- Whether a location is tracked does not change later. -/
theorem tracks_eq (hretains : Retains early late) {loc : Loc}
    (h : loc.index < early.body.locations.size) : late.body.tracks loc = early.body.tracks loc := by
  have hold := Array.getElem?_eq_getElem h
  rw [Body.tracks, Body.tracks, hold, hretains.locations hold]

/-- A statement that was there is covered as before. -/
theorem covered (h : early.Assigns known entering) (hsound : Sound bound early)
    (hretains : Retains early late) (known' : Knowledge)
    (hat : ∀ label : Label, label.index < early.body.labels.size →
      known'.atLabel label = known.atLabel label)
    {block : Block} {before after : List Inst} {stmt : Inst} {command : Command}
    (hsplit : early.body.stmtsOf block = before ++ stmt :: after)
    (hcommand : late.body.command? stmt = some command) :
    command.Covered late.body known' (entering block ∪ late.body.savedBy before) stmt := by
  have hstmt : stmt ∈ early.body.stmts :=
    Body.mem_stmts_of_stmtsOf (hsplit ▸ List.mem_append_right _ List.mem_cons_self)
  have hold := hsound.command_of hretains hstmt hcommand
  obtain ⟨_, hcommand', hproper⟩ := hsound.commands stmt hstmt
  cases hold.symm.trans hcommand'
  have hcovered := h.stmts hsplit hold
  have hmore := Set.union_subset_union_right (entering block) (savedBy_mono hretains before)
  refine ⟨fun access haccess htracks => hmore (hcovered.reads access haccess ?_),
    fun label hlabel => ?_⟩
  · rw [← tracks_eq hretains (hproper.reads access haccess)]
    exact htracks
  · rw [hat label (hproper.target label hlabel)]
    exact (hcovered.target label hlabel).trans hmore

/-- Control falls through a block as before. -/
theorem falls_later (h : early.Assigns known entering) (hretains : Retains early late)
    {block : Block} (hsame : late.body.stmtsOf block = early.body.stmtsOf block)
    (hlt : block.index < early.body.blocks.size) (hopen : early.current ≠ some block)
    (hfalls : late.Falls block) : entering ⟨block.index + 1⟩ ⊆
      entering block ∪ late.body.savedBy (late.body.stmtsOf block) := by
  rw [hsame]
  refine (h.falls hlt hopen fun stmt command hlast hcommand => ?_).trans
    (Set.union_subset_union_right _ (savedBy_mono hretains _))
  exact hfalls stmt command ((congrArg _ hsame).trans hlast) (hretains.command? hcommand)

/-- Records, locations and labels may come without a statement. -/
theorem extended (h : early.Assigns known entering) (hsound : Sound bound early)
    (hretains : Retains early late) (hblocks : late.body.blocks = early.body.blocks)
    (hcurrent : late.current = early.current)
    (hlabels : ∀ {i : Nat} {block : Block}, late.body.labels[i]? = some (some block) →
      early.body.labels[i]? = some (some block))
    {known' : Knowledge} (hhere : known'.here ⊆ known.here)
    (hat : ∀ label : Label, label.index < early.body.labels.size →
      known'.atLabel label = known.atLabel label) : late.Assigns known' entering := by
  have hstmtsOf := Body.stmtsOf_congr hblocks
  have hcursor : late.cursorBlock = early.cursorBlock := by
    rw [cursorBlock, cursorBlock, hcurrent, hblocks]
  constructor
  case entry => exact h.entry
  -- no statement came, so each one is covered as it was
  case stmts =>
    intro block before stmt after command hsplit hcommand
    rw [hstmtsOf] at hsplit
    exact h.covered hsound hretains known' hat hsplit hcommand
  case labels =>
    intro label block hplaced
    have hold := hlabels hplaced
    rw [hat label (Array.getElem?_eq_some_iff.mp hold).1]
    exact h.labels hold
  case falls =>
    intro block hlt hopen hfalls
    exact h.falls_later hretains (hstmtsOf block) (hblocks ▸ hlt) (hcurrent ▸ hopen) hfalls
  case here =>
    rw [hcursor, hstmtsOf]
    exact (hhere.trans h.here).trans (Set.union_subset_union_right _ (savedBy_mono hretains _))

end Assigns

/-! ## Where the next statement comes to -/

/-- Only a block of the body has statements. -/
theorem index_lt_of_mem {body : Body} {block : Block} {stmt : Inst}
    (h : stmt ∈ body.stmtsOf block) : block.index < body.blocks.size := by
  refine Nat.lt_of_not_le fun hle => ?_
  rw [Body.stmtsOf_eq_nil hle] at h
  cases h

/-- The block that a statement goes into is the last one afterwards. -/
theorem place_size {builder : Builder} (hend : builder.AtEnd) (stmt : Inst) (ends : Bool) :
    (builder.place stmt ends).body.blocks.size = builder.cursorBlock.index + 1 := by
  rw [place_blockCount, cursorBlock]
  cases hcur : builder.current with
  | some block => exact (hend block hcur).symm
  | none => rfl

/-- A block in front of the one that takes the next statement is closed. -/
theorem closed_of_lt {builder : Builder} (hend : builder.AtEnd) {block : Block}
    (hlt : block.index < builder.cursorBlock.index) :
    block.index < builder.body.blocks.size ∧ builder.current ≠ some block := by
  rw [cursorBlock] at hlt
  cases hcur : builder.current with
  | some current =>
      rw [hcur, Option.getD_some] at hlt
      have hlast := hend current hcur
      refine ⟨by omega, fun hsame => ?_⟩
      rw [Option.some.inj hsame] at hlt
      exact Nat.lt_irrefl _ hlt
  | none =>
      rw [hcur] at hlt
      exact ⟨hlt, fun hsame => (by cases hsame)⟩

/-- Up to a block, all others are in front of it. -/
theorem lt_of_ne {block other : Block} (hle : block.index < other.index + 1) (hne : block ≠ other) :
    block.index < other.index := by
  refine Nat.lt_of_le_of_ne (Nat.le_of_lt_succ hle) fun heq => hne ?_
  obtain ⟨i⟩ := block
  exact congrArg Key.mk heq

/-- What is known at an earlier block is known as before. -/
theorem update_of_lt {entering : Block → Set Loc} {block last : Block} {assigned : Set Loc}
    (hlt : block.index < last.index) :
    Function.update entering last assigned block = entering block :=
  Function.update_of_ne (fun heq => Nat.lt_irrefl _ (heq ▸ hlt)) _ _

namespace Assigns

variable {bound : Nat} {early : Builder} {known : Knowledge} {entering : Block → Set Loc}

/-- What is known behind the last statement is assigned at the end of its block. -/
theorem behind_subset {body : Body} {stmt : Inst} {command : Command} {stmts : List Inst}
    {assigned : Set Loc} (hcommand : body.command? stmt = some command)
    (hhere : known.here ⊆ assigned ∪ body.savedBy stmts) :
    (known.behind command).here ⊆ assigned ∪ body.savedBy (stmts ++ [stmt]) := by
  rw [Body.savedBy_append, ← Set.union_assoc]
  rintro loc (hloc | hdest)
  · exact Or.inl (hhere hloc)
  · exact Or.inr ⟨stmt, List.mem_singleton_self _, (Body.saves_iff hcommand).mpr hdest⟩

/-- A statement comes to the end. -/
theorem place (h : early.Assigns known entering) (hsound : Sound bound early) {stmt : Inst}
    {command : Command} (hcommand : early.body.command? stmt = some command)
    (hcovered : command.Covered early.body known known.here stmt) :
    ∃ entering', (early.place stmt command.endsBlock).Assigns (known.behind command) entering' := by
  have hend := hsound.tidy.atEnd
  have hstmtsOf := place_stmtsOf hend stmt command.endsBlock
  have hsize := place_size hend stmt command.endsBlock
  have hlt : ∀ {block : Block} {inst : Inst},
      inst ∈ (early.place stmt command.endsBlock).body.stmtsOf block →
        block.index < early.cursorBlock.index + 1 := fun hmem => hsize ▸ index_lt_of_mem hmem
  have hcurrent := place_current early stmt command.endsBlock
  have hretains : Retains early (early.place stmt command.endsBlock) :=
    (grows_place hend stmt command.endsBlock).retains
  have hcommand' := hretains.command? hcommand
  -- what is known behind the statement is known at the block behind the last one
  let last : Block := ⟨early.cursorBlock.index + 1⟩
  let entering' := Function.update entering last (known.behind command).here
  have hlast : entering' last = (known.behind command).here := Function.update_self _ _ _
  have hold : ∀ {block : Block}, block.index < last.index → entering' block = entering block :=
    fun hlt => update_of_lt hlt
  have hhere : known.here ⊆ entering early.cursorBlock ∪
      (early.place stmt command.endsBlock).body.savedBy (early.body.stmtsOf early.cursorBlock) :=
    h.here.trans (Set.union_subset_union_right _ (savedBy_mono hretains _))
  refine ⟨entering', ?_⟩
  constructor
  case entry => exact (hold (Nat.succ_pos _)).trans h.entry
  case stmts =>
    intro block before other after command' hsplit hother
    rw [hold (hlt (hsplit ▸ List.mem_append_right _ List.mem_cons_self))]
    rw [hstmtsOf] at hsplit
    split at hsplit
    · next heq =>
        subst heq
        rcases snoc_eq_append_cons hsplit with ⟨front, hfront, -⟩ | ⟨rfl, rfl, -⟩
        · exact h.covered hsound hretains (known.behind command) (fun _ _ => rfl) hfront hother
        · -- the new statement
          cases hcommand'.symm.trans hother
          refine ⟨fun access haccess htracks => hhere (hcovered.reads access haccess ?_),
            fun label hlabel => (hcovered.target label hlabel).trans hhere⟩
          rw [Body.tracks, place_locations] at htracks
          exact htracks
    · exact h.covered hsound hretains (known.behind command) (fun _ _ => rfl) hsplit hother
  case labels =>
    intro label block hplaced
    rw [place_labels] at hplaced
    obtain ⟨first, rest, hblock, -⟩ := hsound.labelled hplaced
    have hmem : first ∈ (early.place stmt command.endsBlock).body.stmtsOf block := by
      rw [hstmtsOf, hblock]
      split
      · exact List.mem_cons_self
      · exact List.mem_cons_self
    rw [hold (hlt hmem)]
    exact h.labels hplaced
  case falls =>
    intro block hlt hopen hfalls
    rw [hsize] at hlt
    rw [show entering' block = entering block from hold hlt]
    by_cases heq : block = early.cursorBlock
    · -- control goes on behind the new statement
      subst heq
      rw [hstmtsOf, if_pos rfl, show entering' ⟨early.cursorBlock.index + 1⟩ = _ from hlast]
      exact behind_subset hcommand' hhere
    · have hbelow := lt_of_ne hlt heq
      obtain ⟨hlt', hopen'⟩ := closed_of_lt hend hbelow
      rw [show entering' ⟨block.index + 1⟩ = entering ⟨block.index + 1⟩ from
        hold (Nat.succ_lt_succ hbelow)]
      exact h.falls_later hretains ((hstmtsOf block).trans (if_neg heq)) hlt' hopen' hfalls
  case here =>
    rw [cursorBlock, hcurrent]
    by_cases hends : command.endsBlock = true
    · rw [if_pos hends, Option.getD_none, hsize, show entering' ⟨_⟩ = _ from hlast]
      exact Set.subset_union_left
    · rw [if_neg hends, Option.getD_some, hold (Nat.lt_succ_self _), hstmtsOf, if_pos rfl]
      exact behind_subset hcommand' hhere

/-- Nothing is known before there is a block. -/
theorem here_eq_empty (h : early.Assigns known entering) (hend : early.AtEnd)
    (hempty : early.body.blocks.size = 0) : known.here = ∅ := by
  have hcursor : early.cursorBlock = ⟨0⟩ := by
    rw [cursorBlock]
    cases hcur : early.current with
    | some block =>
        have hlast := hend block hcur
        omega
    | none => exact congrArg Key.mk hempty
  have hhere := h.here
  rw [hcursor, h.entry, Body.stmtsOf_eq_nil (Nat.le_of_eq hempty), Body.savedBy_nil,
    Set.empty_union] at hhere
  exact Set.subset_empty_iff.mp hhere

/-- Control comes to the end from the last block. -/
theorem here_subset (h : early.Assigns known entering) (hend : early.AtEnd) {block : Block}
    (hlast : block.index + 1 = early.body.blocks.size) (hfalls : early.Falls block) :
    known.here ⊆ entering block ∪ early.body.savedBy (early.body.stmtsOf block) := by
  refine h.here.trans ?_
  rw [cursorBlock]
  cases hcur : early.current with
  | some current =>
      have hsame : current = block := by
        obtain ⟨i⟩ := current
        obtain ⟨j⟩ := block
        exact congrArg Key.mk (Nat.succ.inj ((hend ⟨i⟩ hcur).trans hlast.symm))
      rw [hsame]
      exact Set.Subset.refl _
  | none =>
      rw [Option.getD_none, Body.stmtsOf_size, Body.savedBy_nil, Set.union_empty, ← hlast]
      exact h.falls (by omega) (by simp [hcur]) hfalls

/-- A label is placed where no less is known than at the label. -/
theorem label (h : early.Assigns known entering) (hsound : Sound bound early) {label : Label}
    (hunplaced : early.body.labels[label.index]? = some none)
    (hfits : known.atLabel label ⊆ known.here) :
    ∃ entering', (early.label label).2.Assigns (known.from label) entering' := by
  have htidy := hsound.tidy
  have happends := hsound.label_appends hunplaced
  have hretains := happends.retains
  let late := (early.label label).2
  let start : Block := ⟨early.body.blocks.size⟩
  have hcurrent : late.current = some start := label_current htidy label
  let entering' := Function.update entering start (known.atLabel label)
  have hstart : entering' start = known.atLabel label := Function.update_self _ _ _
  have hold : ∀ {block : Block}, block.index < start.index → entering' block = entering block :=
    fun hlt => update_of_lt hlt
  refine ⟨entering', ?_⟩
  show late.Assigns (known.from label) entering'
  constructor
  -- in an empty body the label starts the entry, where nothing is known
  case entry =>
    by_cases hempty : early.body.blocks.size = 0
    · rw [show (⟨0⟩ : Block) = start from congrArg Key.mk hempty.symm, hstart]
      exact Set.subset_empty_iff.mp (h.here_eq_empty htidy.atEnd hempty ▸ hfits)
    · exact (hold (Nat.pos_of_ne_zero hempty)).trans h.entry
  case stmts =>
    intro block before other after command hsplit hother
    rcases happends.split hsplit with ⟨after', hold', -⟩ | ⟨rfl, -⟩
    · rw [hold (index_lt_of_mem (hold' ▸ List.mem_append_right _ List.mem_cons_self))]
      exact h.covered hsound hretains (known.from label) (fun _ _ => rfl) hold' hother
    · cases happends.command.symm.trans hother
      exact ⟨fun _ hread => (by cases hread), fun _ htarget => (by cases htarget)⟩
  -- only the new label points at the new block
  case labels =>
    intro other block hplaced
    rw [label_labels htidy] at hplaced
    split at hplaced
    · next hself =>
        cases hplaced
        rw [show other = label from congrArg Key.mk hself.1.symm]
        exact subset_of_eq hstart
    · obtain ⟨first, rest, hblock, -⟩ := hsound.labelled hplaced
      rw [hold (index_lt_of_mem (hblock ▸ List.mem_cons_self))]
      exact h.labels hplaced
  case falls =>
    intro block hlt hopen hfalls
    have hne : block ≠ start := fun heq => hopen (hcurrent.trans (congrArg some heq.symm))
    have hbelow : block.index < start.index := lt_of_ne (label_blockCount htidy label ▸ hlt) hne
    have hsame : late.body.stmtsOf block = early.body.stmtsOf block :=
      (happends.stmtsOf block).trans (if_neg hne)
    rw [show entering' block = entering block from hold hbelow]
    by_cases hlast : block.index + 1 = early.body.blocks.size
    · -- control comes to the label from the block in front of it
      rw [show (⟨block.index + 1⟩ : Block) = start from congrArg Key.mk hlast, hstart, hsame]
      refine hfits.trans (Set.Subset.trans
        (h.here_subset htidy.atEnd hlast fun stmt command hlast hcommand => ?_)
        (Set.union_subset_union_right _ (savedBy_mono hretains _)))
      exact hfalls stmt command ((congrArg _ hsame).trans hlast) (hretains.command? hcommand)
    · rw [show entering' ⟨block.index + 1⟩ = entering ⟨block.index + 1⟩ from
        hold (Nat.lt_of_le_of_ne hbelow hlast)]
      exact h.falls_later hretains hsame hbelow (fun hcur => hlast (htidy.atEnd block hcur)) hfalls
  case here =>
    rw [show late.cursorBlock = start by rw [cursorBlock, hcurrent]; rfl, hstart]
    exact Set.subset_union_left

/-! ## Ways through what is built -/

/-- What is known at a point of a body. -/
def At (body : Body) (entering : Block → Set Loc) (saved : Set Loc) (point : Point) : Prop :=
  ∃ before, body.stmtsOf point.block = before ++ point.rest ∧
    entering point.block ∪ body.savedBy before ⊆ saved

/-- What is known at a point has been saved by what was passed. -/
theorem along (h : early.Assigns known entering) (hend : early.AtEnd)
    (wf : WellFormed early.body) {point last : Point} {passed : List Inst}
    (hway : early.body.Way point passed last) {saved : Set Loc}
    (hat : early.body.At point.block point.rest) (hknown : At early.body entering saved point) :
    At early.body entering (saved ∪ early.body.savedBy passed) last := by
  induction hway generalizing saved with
  | stay point =>
      rw [Body.savedBy_nil, Set.union_empty]
      exact hknown
  -- a fall adds the statement that was passed, a jump brings what is known at its label
  | @pass point next last stmt rest passed hrest hleads _ ih =>
      have hat' := wf.at_leads hat hleads
      obtain ⟨block, _⟩ := point
      cases hrest
      obtain ⟨before, hsplit, hsaved⟩ := hknown
      rw [show stmt :: passed = [stmt] ++ passed from rfl, Body.savedBy_append, ← Set.union_assoc]
      cases hleads with
      | fall hcommand hfalls =>
          refine ih hat' ⟨before ++ [stmt], by rw [List.append_assoc]; exact hsplit, ?_⟩
          rw [Body.savedBy_append, ← Set.union_assoc]
          exact Set.union_subset_union_left _ hsaved
      | @jump _ target _ _ command label hcommand hlabel hplaced =>
          refine ih hat' ⟨[], rfl, ?_⟩
          rw [Body.savedBy_nil, Set.union_empty]
          exact ((h.labels hplaced).trans ((h.stmts hsplit hcommand).target label hlabel)).trans
            (hsaved.trans Set.subset_union_left)
  | @leave point next last passed hrest hleads _ ih =>
      have hat' := wf.at_leads hat hleads
      obtain ⟨block, _⟩ := point
      cases hrest
      obtain ⟨before, hsplit, hsaved⟩ := hknown
      rw [List.append_nil] at hsplit
      cases hleads with
      -- control falls out of the block, so its last statement does not end it
      | @leave _ target hnext =>
          refine ih hat' ⟨[], rfl, ?_⟩
          rw [Body.savedBy_nil, Set.union_empty]
          rw [Body.next?] at hnext
          split at hnext
          · next hlt =>
              cases hnext
              obtain ⟨before', hsplit', hfalls⟩ := hat.reached
              rw [List.append_nil] at hsplit'
              refine (h.falls hat.block_lt (fun hcur => ?_) ?_).trans (hsplit ▸ hsaved)
              · have hlast := hend block hcur
                omega
              · exact fun stmt command hlast => hfalls stmt command (hsplit' ▸ hlast)
          · cases hnext

/-- **WHAT IS BUILT IS INITIALIZED**: on a way from the entry, what is known where
    it comes to has been saved. -/
theorem initialized (h : early.Assigns known entering) (hend : early.AtEnd)
    (wf : WellFormed early.body) : early.body.Initialized := by
  intro passed point access hway hreads htracks
  obtain ⟨stmt, rest, command, hrest, hcommand, haccess⟩ := hreads
  have hentry : entering ⟨0⟩ ∪ early.body.savedBy [] ⊆ ∅ := by
    rw [h.entry, Body.savedBy_nil, Set.union_empty]
  obtain ⟨before, hsplit, hsaved⟩ := h.along hend wf hway (Body.At.start wf.blocks_pos)
    ⟨[], rfl, hentry⟩
  rw [hrest] at hsplit
  rw [Set.empty_union] at hsaved
  exact hsaved ((h.stmts hsplit hcommand).reads access haccess htracks)

end Assigns

end Builder

end DecafBackend
