import DecafBackend.Proofs.CommonTermsEdits
import DecafBackend.Proofs.FitBodies
import DecafBackend.Proofs.LoweringGrowth

/-! # Sound builders

    The body that a builder has under construction is well-formed as far as it
    goes: labels that are jumped to need not be placed yet, and control may leave
    the end.  Every step of a builder keeps it so.

    * `Builder.Sound` — bodies under construction
    * `Sound.extended` — growth
    * `Appends`, `Sound.appended` — one more statement
    * `Sound.attach`, `Sound.label` — statements and labels
    * `Sound.regular`, `Sound.fit` — a body that is finished is regular and fit for
      emission -/

namespace DecafBackend

/-- What a command may name while labels are not placed yet; arguments have
    positions below a bound. -/
structure Command.Proper (bound : Nat) (body : Body) (stmt : Inst) (command : Command) : Prop where
  reads : ∀ access ∈ command.reads stmt, access.loc.index < body.locations.size
  dest : ∀ loc, command.dest? = some loc →
    ∃ location, body.locations[loc.index]? = some location ∧ location.isWritable = true
  target : ∀ label, command.target? = some label → label.index < body.labels.size
  unsaved : command.saved = []
  param : ∀ inst index dest, command = .save (.param inst index) dest → index < bound
  unused : ∀ loc, command ≠ .use loc

/-! ## Statements in order -/

namespace Body

theorem stmts_newBlock (body : Body) (label : Option Label) :
    (body.newBlock label).2.stmts = body.stmts := by
  show (body.blocks.push { label }).toList.flatMap BasicBlock.stmts = _
  rw [Array.toList_push, List.flatMap_append, List.flatMap_singleton, List.append_nil]
  rfl

/-- A statement at the end of the last block is the last statement. -/
theorem stmts_push (body : Body) (inst : Inst) {block : Block}
    (h : block.index + 1 = body.blocks.size) :
    (body.push inst block).stmts = body.stmts ++ [inst] := by
  have hlist : ∀ (blocks : List BasicBlock) (i : Nat), i + 1 = blocks.length →
      (blocks.modify i fun basic => { basic with stmts := basic.stmts ++ [inst] }).flatMap
        BasicBlock.stmts = blocks.flatMap BasicBlock.stmts ++ [inst] := by
    intro blocks
    induction blocks with
    | nil => exact fun i hi => by cases hi
    | cons first rest ih =>
        intro i hi
        cases i with
        | zero =>
            obtain rfl : rest = [] := List.length_eq_zero_iff.mp (by simpa using hi.symm)
            simp
        | succ i =>
            rw [List.modify_succ_cons, List.flatMap_cons, ih i (by simpa using hi),
              List.flatMap_cons, List.append_assoc]
  show (body.blocks.modify block.index _).toList.flatMap BasicBlock.stmts = _
  rw [Array.toList_modify]
  exact hlist body.blocks.toList block.index (by rw [h, Array.length_toList])

end Body

/-- A member of a list with one more at its end stands in the list or is the one more. -/
theorem snoc_eq_append_cons {α : Type} {list before after : List α} {last x : α}
    (h : list ++ [last] = before ++ x :: after) :
    (∃ front, list = before ++ x :: front ∧ after = front ++ [last]) ∨
      (list = before ∧ x = last ∧ after = []) := by
  rcases List.eq_nil_or_concat after with rfl | ⟨front, other, rfl⟩
  · obtain ⟨hbefore, hlast⟩ := List.append_inj' h rfl
    exact Or.inr ⟨hbefore, (List.cons.inj hlast).1.symm, rfl⟩
  · rw [List.concat_eq_append, ← List.cons_append, ← List.append_assoc] at h
    obtain ⟨hfront, hlast⟩ := List.append_inj' h rfl
    refine Or.inl ⟨front, hfront, ?_⟩
    rw [List.concat_eq_append, (List.cons.inj hlast).1]

namespace Builder

theorem place_bindings (builder : Builder) (inst : Inst) (ends : Bool) :
    (builder.place inst ends).body.bindings = builder.body.bindings := by
  cases hcur : builder.current with
  | some block => simp [place, hcur, Body.push]
  | none => simp [place, hcur, Body.push, Body.newBlock]

/-- A statement is placed behind all the statements there are. -/
theorem place_stmts {builder : Builder} (hend : builder.AtEnd) (inst : Inst) (ends : Bool) :
    (builder.place inst ends).body.stmts = builder.body.stmts ++ [inst] := by
  cases hcur : builder.current with
  | some block =>
      simp only [place, hcur]
      exact Body.stmts_push builder.body inst (hend block hcur)
  | none =>
      simp only [place, hcur]
      rw [Body.stmts_push _ inst (by simp [Body.newBlock]), Body.stmts_newBlock]

theorem label_bindings {builder : Builder} (htidy : builder.Tidy) (label : Label) :
    (builder.label label).2.body.bindings = builder.body.bindings := by
  rw [label_eq htidy]
  exact place_bindings _ _ _

/-- A label is placed as a statement of its own, behind all the others. -/
theorem label_stmts {builder : Builder} (htidy : builder.Tidy) (label : Label) :
    (builder.label label).2.body.stmts = builder.body.stmts ++ [⟨builder.body.records.size⟩] := by
  have hcreated : ((builder.atNewBlock label).create (.label label)).2.body.stmts =
      builder.body.stmts := Body.stmts_newBlock builder.body (some label)
  rw [label_eq htidy]
  refine (place_stmts (atEnd_create (atEnd_atNewBlock builder label) _) _ _).trans ?_
  rw [hcreated]
  rfl

theorem label_command? {builder : Builder} (htidy : builder.Tidy) (label : Label) :
    (builder.label label).2.body.command? ⟨builder.body.records.size⟩ = some (.label label) := by
  refine Body.command?_eq_some.mpr ?_
  show _ = _
  rw [label_records htidy, Array.getElem?_push, if_pos rfl]

/-! ## Bodies under construction -/

/-- A later builder has all records and locations of the earlier one. -/
structure Retains (early late : Builder) : Prop where
  records : ∀ {i : Nat} {record : Record}, early.body.records[i]? = some record →
    late.body.records[i]? = some record
  locations : ∀ {i : Nat} {location : Location}, early.body.locations[i]? = some location →
    late.body.locations[i]? = some location
  labelCount : early.body.labels.size ≤ late.body.labels.size

theorem Grows.retains {early late : Builder} (h : Grows early late) : Retains early late :=
  ⟨h.records, h.locations, h.labelCount⟩

namespace Retains

theorem trans {a b c : Builder} (h₁ : Retains a b) (h₂ : Retains b c) : Retains a c where
  records h := h₂.records (h₁.records h)
  locations h := h₂.locations (h₁.locations h)
  labelCount := Nat.le_trans h₁.labelCount h₂.labelCount

variable {early late : Builder} (h : Retains early late)
include h

/-- What a statement stands for is kept. -/
theorem command? {stmt : Inst} {command : Command}
    (hcommand : early.body.command? stmt = some command) :
    late.body.command? stmt = some command := by
  refine Body.command?_of_records hcommand fun inst hinst => ?_
  have hlt := Body.lt_size_of_mem_family hcommand hinst
  rw [Array.getElem?_eq_getElem hlt]
  exact h.records (Array.getElem?_eq_getElem hlt)

theorem location_lt {loc : Loc} (hlt : loc.index < early.body.locations.size) :
    loc.index < late.body.locations.size :=
  (Array.getElem?_eq_some_iff.mp (h.locations (Array.getElem?_eq_getElem hlt))).1

/-- A command that fits the body fits it still when more is there. -/
theorem proper {bound : Nat} {stmt : Inst} {command : Command}
    (hproper : command.Proper bound early.body stmt) : command.Proper bound late.body stmt where
  reads access haccess := h.location_lt (hproper.reads access haccess)
  dest loc hdest := by
    obtain ⟨location, hlocation, hwritable⟩ := hproper.dest loc hdest
    exact ⟨location, h.locations hlocation, hwritable⟩
  target label hlabel := Nat.lt_of_lt_of_le (hproper.target label hlabel) h.labelCount
  unsaved := hproper.unsaved
  param := hproper.param
  unused := hproper.unused

end Retains

/-- A later builder has more records, and nothing else. -/
structure Records (early late : Builder) : Prop where
  same : late = { early with body := { early.body with records := late.body.records } }
  kept : ∀ {i : Nat} {record : Record}, early.body.records[i]? = some record →
    late.body.records[i]? = some record

namespace Records

theorem refl (builder : Builder) : Records builder builder := ⟨rfl, id⟩

theorem create {early late : Builder} (h : Records early late) (record : Record) :
    Records early (late.create record).2 where
  same := by
    rw [h.same]
    rfl
  kept hrecord := getElem?_push_of_some (h.kept hrecord)

variable {early late : Builder} (h : Records early late)
include h

theorem blocks : late.body.blocks = early.body.blocks := by rw [h.same]

theorem labels : late.body.labels = early.body.labels := by rw [h.same]

theorem locations : late.body.locations = early.body.locations := by rw [h.same]

theorem bindings : late.body.bindings = early.body.bindings := by rw [h.same]

theorem current : late.current = early.current := by rw [h.same]

theorem retains : Retains early late where
  records := h.kept
  locations hlocation := h.locations ▸ hlocation
  labelCount := h.labels ▸ Nat.le_refl _

end Records

/-- A statement with records of its own has come to the end of a block. -/
structure Appends (early late : Builder) (stmt : Inst) (command : Command) (target : Block) :
    Prop where
  retains : Retains early late
  tidy : late.Tidy
  bindings : late.body.bindings = early.body.bindings
  locations : late.body.locations = early.body.locations
  stmts : late.body.stmts = early.body.stmts ++ [stmt]
  stmtsOf : ∀ block, late.body.stmtsOf block =
    if block = target then early.body.stmtsOf block ++ [stmt] else early.body.stmtsOf block
  current : ∀ block, late.current = some block → block = target ∧ command.endsBlock = false
  new : ∀ inst ∈ command.owned ++ [stmt], early.body.records.size ≤ inst.index
  command : late.body.command? stmt = some command

namespace Appends

variable {early late : Builder} {stmt : Inst} {command : Command} {target : Block}
  (h : Appends early late stmt command target)
include h

/-- The statement that comes is the only new one. -/
theorem mem {other : Inst} (hother : other ∈ late.body.stmts) :
    other ∈ early.body.stmts ∨ other = stmt := by
  rw [h.stmts, List.mem_append, List.mem_singleton] at hother
  exact hother

/-- It comes to its target block only. -/
theorem mem_stmtsOf {block : Block} {other : Inst} (hother : other ∈ late.body.stmtsOf block) :
    other ∈ early.body.stmtsOf block ∨ (block = target ∧ other = stmt) := by
  rw [h.stmtsOf] at hother
  split at hother
  · next heq =>
      rw [List.mem_append, List.mem_singleton] at hother
      exact hother.imp_right fun hsame => ⟨heq, hsame⟩
  · exact Or.inl hother

/-- A block that has a first statement keeps it. -/
theorem stmtsOf_cons {block : Block} {first : Inst} {rest : List Inst}
    (hblock : early.body.stmtsOf block = first :: rest) :
    ∃ rest', late.body.stmtsOf block = first :: rest' := by
  rw [h.stmtsOf, hblock]
  split
  · exact ⟨rest ++ [stmt], rfl⟩
  · exact ⟨rest, rfl⟩

/-- What stands in front of a statement stood there, or it is the new one. -/
theorem split {block : Block} {before after : List Inst} {other : Inst}
    (hsplit : late.body.stmtsOf block = before ++ other :: after) :
    (∃ after', early.body.stmtsOf block = before ++ other :: after' ∧
      (after' = after ∨ block = target)) ∨ (other = stmt ∧ after = []) := by
  rw [h.stmtsOf] at hsplit
  split at hsplit
  · next heq =>
      rcases snoc_eq_append_cons hsplit with ⟨front, hfront, -⟩ | ⟨-, hother, hnil⟩
      · exact Or.inl ⟨front, hfront, Or.inr heq⟩
      · exact Or.inr ⟨hother, hnil⟩
  · exact Or.inl ⟨after, hsplit, Or.inl rfl⟩

/-- No statement that was there has records of the new one. -/
theorem fresh {other inst : Inst} {old : Command} (hold : early.body.command? other = some old)
    (hinst : inst ∈ late.body.family other) : inst ∉ late.body.family stmt := by
  intro hinst'
  rw [Body.family_eq (h.retains.command? hold)] at hinst
  rw [Body.family_eq h.command] at hinst'
  exact Nat.not_lt.mpr (h.new inst hinst') (Body.lt_size_of_mem_family hold hinst)

end Appends

/-- A builder whose body is well-formed as far as it goes. -/
structure Sound (bound : Nat) (builder : Builder) : Prop where
  tidy : builder.Tidy
  unbound : builder.body.bindings = {}
  noTemp : builder.body.HasNoTemp
  interned : ∀ {i j : Nat} {location : Location}, builder.body.locations[i]? = some location →
    builder.body.locations[j]? = some location → location.isInterned = true → i = j
  commands : ∀ stmt ∈ builder.body.stmts, ∃ command, builder.body.command? stmt = some command ∧
    command.Proper bound builder.body stmt
  distinct : builder.body.stmts.Nodup
  owned : ∀ stmt ∈ builder.body.stmts, ∀ other ∈ builder.body.stmts, ∀ inst,
    inst ∈ builder.body.family stmt → inst ∈ builder.body.family other → stmt = other
  enders : ∀ {block before stmt after command},
    builder.body.stmtsOf block = before ++ stmt :: after →
    builder.body.command? stmt = some command → command.endsBlock = true → after = []
  /-- Control falls through the current block. -/
  falls : ∀ {block stmt command}, builder.current = some block →
    stmt ∈ builder.body.stmtsOf block → builder.body.command? stmt = some command →
    command.endsBlock = false
  labelled : ∀ {label : Label} {block : Block},
    builder.body.labels[label.index]? = some (some block) →
    ∃ stmt rest, builder.body.stmtsOf block = stmt :: rest ∧
      builder.body.command? stmt = some (.label label)
  placed : ∀ {stmt : Inst} {label : Label}, stmt ∈ builder.body.stmts →
    builder.body.command? stmt = some (.label label) →
    ∃ block rest, builder.body.labels[label.index]? = some (some block) ∧
      builder.body.stmtsOf block = stmt :: rest

namespace Sound

variable {bound : Nat} {early late : Builder}

theorem family_eq (h : Sound bound early) (hretains : Retains early late) {stmt : Inst}
    (hstmt : stmt ∈ early.body.stmts) : late.body.family stmt = early.body.family stmt := by
  obtain ⟨command, hcommand, -⟩ := h.commands stmt hstmt
  rw [Body.family_eq hcommand, Body.family_eq (hretains.command? hcommand)]

/-- The command that a statement had is the one it has. -/
theorem command_of (h : Sound bound early) (hretains : Retains early late) {stmt : Inst}
    {command : Command} (hstmt : stmt ∈ early.body.stmts)
    (hcommand : late.body.command? stmt = some command) :
    early.body.command? stmt = some command := by
  obtain ⟨old, hold, -⟩ := h.commands stmt hstmt
  cases (hretains.command? hold).symm.trans hcommand
  exact hold

/-! ## Growth -/

/-- Records, locations and labels may come without a statement. -/
theorem extended (h : Sound bound early) (hretains : Retains early late)
    (hblocks : late.body.blocks = early.body.blocks) (hcurrent : late.current = early.current)
    (hbindings : late.body.bindings = early.body.bindings) (hnoTemp : late.body.HasNoTemp)
    (hinterned : ∀ {i j : Nat} {location : Location}, late.body.locations[i]? = some location →
      late.body.locations[j]? = some location → location.isInterned = true → i = j)
    (hlabels : ∀ (i : Nat) (block : Block), late.body.labels[i]? = some (some block) ↔
      early.body.labels[i]? = some (some block)) : Sound bound late := by
  have hstmts : late.body.stmts = early.body.stmts := Body.stmts_congr hblocks
  have hstmtsOf := Body.stmtsOf_congr hblocks
  constructor
  case tidy =>
    -- the clauses speak of the blocks, the cursor and the labels, which are the same
    refine ⟨fun block hblock => ?_, fun block hblock => ?_⟩
    · rw [hblocks]
      exact h.tidy.atEnd block (hcurrent ▸ hblock)
    · rw [hstmtsOf]
      exact h.tidy.nonempty block (hcurrent ▸ hblock)
  case unbound => exact hbindings.trans h.unbound
  case noTemp => exact hnoTemp
  case interned => exact hinterned
  case commands =>
    intro stmt hstmt
    obtain ⟨command, hcommand, hproper⟩ := h.commands stmt (hstmts ▸ hstmt)
    exact ⟨command, hretains.command? hcommand, hretains.proper hproper⟩
  case distinct => exact hstmts ▸ h.distinct
  case owned =>
    intro stmt hstmt other hother inst hinst hinst'
    rw [hstmts] at hstmt hother
    rw [h.family_eq hretains hstmt] at hinst
    rw [h.family_eq hretains hother] at hinst'
    exact h.owned stmt hstmt other hother inst hinst hinst'
  case enders =>
    intro block before stmt after command hsplit hcommand
    rw [hstmtsOf] at hsplit
    have hstmt : stmt ∈ early.body.stmts :=
      Body.mem_stmts_of_stmtsOf (hsplit ▸ List.mem_append_right _ List.mem_cons_self)
    exact h.enders hsplit (h.command_of hretains hstmt hcommand)
  case falls =>
    intro block stmt command hblock hstmt hcommand
    rw [hstmtsOf] at hstmt
    exact h.falls (hcurrent ▸ hblock) hstmt
      (h.command_of hretains (Body.mem_stmts_of_stmtsOf hstmt) hcommand)
  case labelled =>
    intro label block hplaced
    obtain ⟨stmt, rest, hblock, hcommand⟩ := h.labelled ((hlabels _ _).mp hplaced)
    exact ⟨stmt, rest, (hstmtsOf block).trans hblock, hretains.command? hcommand⟩
  case placed =>
    intro stmt label hstmt hcommand
    rw [hstmts] at hstmt
    obtain ⟨block, rest, hplaced, hblock⟩ :=
      h.placed hstmt (h.command_of hretains hstmt hcommand)
    exact ⟨block, rest, (hlabels _ _).mpr hplaced, (hstmtsOf block).trans hblock⟩

theorem noteParam (h : Sound bound early) (loc : Loc) : Sound bound (early.noteParam loc) :=
  h.extended ⟨id, id, Nat.le_refl _⟩ rfl rfl rfl h.noTemp h.interned fun _ _ => Iff.rfl

/-- A label more, not placed yet. -/
theorem newLabel (h : Sound bound early) : Sound bound early.newLabel.2 := by
  refine h.extended (grows_newLabel early).retains rfl rfl rfl h.noTemp h.interned fun i block => ?_
  show (early.body.labels.push none)[i]? = _ ↔ _
  rw [Array.getElem?_push]
  split
  · next heq =>
      rw [heq, Array.getElem?_eq_none (Nat.le_refl _)]
      simp
  · exact Iff.rfl

/-- A location more: a variable, or one that is not there yet. -/
theorem newLocation (h : Sound bound early) {location : Location} (htemp : location ≠ .temp)
    (hnew : location.isInterned = true → ∀ i : Nat, early.body.locations[i]? ≠ some location) :
    Sound bound { early with body := (early.body.newLocation location).2 } := by
  -- the new location stands behind all the others
  have hlook : ∀ (i : Nat) (other : Location),
      (early.body.locations.push location)[i]? = some other →
        early.body.locations[i]? = some other ∨
          (i = early.body.locations.size ∧ other = location) := by
    intro i other hother
    rw [Array.getElem?_push] at hother
    split at hother
    · next heq => exact Or.inr ⟨heq, (Option.some.inj hother).symm⟩
    · exact Or.inl hother
  refine h.extended ⟨id, getElem?_push_of_some, Nat.le_refl _⟩ rfl rfl rfl ?_ ?_ fun _ _ => Iff.rfl
  · intro i hi
    rcases hlook i _ hi with hi | ⟨-, heq⟩
    · exact h.noTemp i hi
    · exact htemp heq.symm
  · intro i j other hi hj hinterned
    rcases hlook i other hi with hold | ⟨rfl, rfl⟩
    · rcases hlook j other hj with hold' | ⟨rfl, rfl⟩
      · exact h.interned hold hold' hinterned
      · exact absurd hold (hnew hinterned i)
    · rcases hlook j other hj with hold' | ⟨rfl, -⟩
      · exact absurd hold' (hnew hinterned j)
      · rfl

theorem localVar (h : Sound bound early) (name : Symbol) : Sound bound (early.localVar name).2 :=
  h.newLocation (fun heq => by cases heq) fun hinterned => by cases hinterned

/-- An interned location is there once, however often it is asked for. -/
theorem intern (h : Sound bound early) {location : Location} (htemp : location ≠ .temp) :
    Sound bound (early.intern location).2 := by
  simp only [Builder.intern, Body.intern]
  cases hfound : early.body.locations.findIdx? (· == location) with
  | some index => exact h
  | none =>
      refine h.newLocation htemp fun _ i hi => ?_
      have hnot := Array.findIdx?_eq_none_iff.mp hfound location (Array.mem_of_getElem? hi)
      rw [beq_self_eq_true] at hnot
      cases hnot

/-! ## One more statement -/

/-- A statement comes to the end of a block through which control falls. -/
theorem appended (h : Sound bound early) {stmt : Inst} {command : Command} {target : Block}
    (happends : Appends early late stmt command target)
    (hproper : command.Proper bound late.body stmt)
    (hfalls : ∀ other command, other ∈ early.body.stmtsOf target →
      early.body.command? other = some command → command.endsBlock = false)
    (hlabels : ∀ (label : Label) (block : Block),
      late.body.labels[label.index]? = some (some block) ↔
        early.body.labels[label.index]? = some (some block) ∨
          (command = .label label ∧ block = target))
    (hempty : ∀ label, command = .label label → early.body.stmtsOf target = []) :
    Sound bound late := by
  have hretains := happends.retains
  -- records made for the new statement belong to no old one
  have hfresh : ∀ {other inst}, other ∈ early.body.stmts → inst ∈ late.body.family other →
      inst ∉ late.body.family stmt := by
    intro other inst hother
    obtain ⟨old, hold, -⟩ := h.commands other hother
    exact happends.fresh hold
  constructor
  case tidy => exact happends.tidy
  case unbound => exact happends.bindings.trans h.unbound
  case noTemp =>
    rw [Body.HasNoTemp, happends.locations]
    exact h.noTemp
  case interned =>
    rw [happends.locations]
    exact h.interned
  case commands =>
    intro other hother
    rcases happends.mem hother with hother | rfl
    · obtain ⟨old, hold, hproper'⟩ := h.commands other hother
      exact ⟨old, hretains.command? hold, hretains.proper hproper'⟩
    · exact ⟨command, happends.command, hproper⟩
  -- the new statement comes last, and is none of the old ones
  case distinct =>
    rw [happends.stmts, List.nodup_append]
    refine ⟨h.distinct, List.pairwise_singleton _ _, ?_⟩
    rintro other hother _ hlast rfl
    rw [List.mem_singleton] at hlast
    subst hlast
    exact hfresh hother (Body.mem_family_self _ _) (Body.mem_family_self _ _)
  case owned =>
    intro a ha b hb inst hinst hinst'
    rcases happends.mem ha, happends.mem hb with ⟨ha | rfl, hb | rfl⟩
    · rw [h.family_eq hretains ha] at hinst
      rw [h.family_eq hretains hb] at hinst'
      exact h.owned a ha b hb inst hinst hinst'
    · exact absurd hinst' (hfresh ha hinst)
    · exact absurd hinst (hfresh hb hinst')
    · rfl
  -- a statement that ends its block may only stand last: the block was open
  case enders =>
    intro block before other after command' hsplit hother hends
    rcases happends.split hsplit with ⟨after', hold, hafter⟩ | ⟨-, hnil⟩
    · have hmem : other ∈ early.body.stmtsOf block :=
        hold ▸ List.mem_append_right _ List.mem_cons_self
      have hother' := h.command_of hretains (Body.mem_stmts_of_stmtsOf hmem) hother
      rcases hafter with rfl | rfl
      · exact h.enders hold hother' hends
      · cases (hfalls other command' hmem hother').symm.trans hends
    · exact hnil
  case falls =>
    intro block other command' hblock hother hcommand'
    obtain ⟨rfl, hends⟩ := happends.current block hblock
    rcases happends.mem_stmtsOf hother with hother | ⟨-, rfl⟩
    · exact hfalls other command' hother
        (h.command_of hretains (Body.mem_stmts_of_stmtsOf hother) hcommand')
    · cases happends.command.symm.trans hcommand'
      exact hends
  case labelled =>
    intro label block hplaced
    rcases (hlabels label block).mp hplaced with hold | ⟨rfl, rfl⟩
    · obtain ⟨first, rest, hblock, hfirst⟩ := h.labelled hold
      obtain ⟨rest', hblock'⟩ := happends.stmtsOf_cons hblock
      exact ⟨first, rest', hblock', hretains.command? hfirst⟩
    · refine ⟨stmt, [], ?_, happends.command⟩
      rw [happends.stmtsOf, if_pos rfl, hempty label rfl]
      rfl
  -- a label was placed before, or is the statement that comes
  case placed =>
    intro other label hother hcommand
    rcases happends.mem hother with hother | rfl
    · obtain ⟨block, rest, hplaced, hblock⟩ :=
        h.placed hother (h.command_of hretains hother hcommand)
      obtain ⟨rest', hblock'⟩ := happends.stmtsOf_cons hblock
      exact ⟨block, rest', (hlabels label block).mpr (Or.inl hplaced), hblock'⟩
    · cases happends.command.symm.trans hcommand
      refine ⟨target, [], (hlabels label target).mpr (Or.inr ⟨rfl, rfl⟩), ?_⟩
      rw [happends.stmtsOf, if_pos rfl, hempty label rfl]
      rfl

/-- Records may come without a statement. -/
theorem records (h : Sound bound early) (hrecords : Records early late) : Sound bound late := by
  refine h.extended hrecords.retains hrecords.blocks hrecords.current hrecords.bindings ?_
    (hrecords.locations ▸ h.interned) fun _ _ => hrecords.labels ▸ Iff.rfl
  rw [Body.HasNoTemp, hrecords.locations]
  exact h.noTemp

/-- Control falls through all statements of the block that takes the next one. -/
theorem falls_cursor (h : Sound bound early) {stmt : Inst} {command : Command}
    (hstmt : stmt ∈ early.body.stmtsOf early.cursorBlock)
    (hcommand : early.body.command? stmt = some command) : command.endsBlock = false := by
  rw [cursorBlock] at hstmt
  cases hcurrent : early.current with
  | some block =>
      rw [hcurrent] at hstmt
      exact h.falls hcurrent hstmt hcommand
  | none =>
      rw [hcurrent, Option.getD_none, Body.stmtsOf_size] at hstmt
      cases hstmt

/-- A statement that is no label comes to the end of the current block, with
    records that were made for it. -/
theorem attach (h : Sound bound early) (hrecords : Records early late) {stmt : Inst}
    {command : Command} (hcommand : late.body.command? stmt = some command)
    (hproper : command.Proper bound late.body stmt)
    (hnew : ∀ inst ∈ command.owned ++ [stmt], early.body.records.size ≤ inst.index)
    (hlabel : ∀ label, command ≠ .label label) :
    Sound bound (late.place stmt command.endsBlock) := by
  have hlate := h.records hrecords
  have hend := hlate.tidy.atEnd
  have hgrows := (grows_place hend stmt command.endsBlock).retains
  have hcursor : late.cursorBlock = early.cursorBlock := by
    rw [cursorBlock, cursorBlock, hrecords.current, hrecords.blocks]
  have happends :
      Appends early (late.place stmt command.endsBlock) stmt command early.cursorBlock := {
    -- the records come first, then the statement is placed at the cursor
    retains := hrecords.retains.trans hgrows
    tidy := tidy_place hend _ _
    bindings := (place_bindings _ _ _).trans hrecords.bindings
    locations := (place_locations _ _ _).trans hrecords.locations
    stmts := by rw [place_stmts hend, Body.stmts_congr hrecords.blocks]
    stmtsOf := fun block => by
      rw [place_stmtsOf hend, hcursor, Body.stmtsOf_congr hrecords.blocks]
    current := fun block hblock => by
      rw [place_current] at hblock
      split at hblock
      · cases hblock
      · next hends =>
          cases hblock
          exact ⟨hcursor, Bool.not_eq_true _ ▸ hends⟩
    new := hnew
    command := hgrows.command? hcommand }
  refine h.appended happends (hgrows.proper hproper) (fun _ _ => h.falls_cursor)
    (fun label block => ?_) fun label heq => absurd heq (hlabel label)
  rw [place_labels, hrecords.labels]
  exact (or_iff_left fun hself => hlabel label hself.1).symm

/-- A label comes to a block of its own. -/
theorem label_appends (h : Sound bound early) {label : Label}
    (hunplaced : early.body.labels[label.index]? = some none) :
    Appends early (early.label label).2 ⟨early.body.records.size⟩ (.label label)
      ⟨early.body.blocks.size⟩ where
  retains := (grows_label h.tidy hunplaced).retains
  tidy := tidy_label h.tidy label
  bindings := label_bindings h.tidy label
  locations := label_locations h.tidy label
  stmts := label_stmts h.tidy label
  stmtsOf block := by
    rw [label_stmtsOf h.tidy]
    split
    · next heq =>
        rw [heq, Body.stmtsOf_size]
        rfl
    · rfl
  current block hblock := by
    cases (label_current h.tidy label).symm.trans hblock
    exact ⟨rfl, rfl⟩
  new inst hinst := by rw [List.mem_singleton.mp hinst]
  command := label_command? h.tidy label

/-- A label is placed. -/
theorem label (h : Sound bound early) {label : Label}
    (hunplaced : early.body.labels[label.index]? = some none) :
    Sound bound (early.label label).2 := by
  obtain ⟨hknown, -⟩ := Array.getElem?_eq_some_iff.mp hunplaced
  refine h.appended (h.label_appends hunplaced) ?_ ?_ (fun other block => ?_)
    fun _ _ => Body.stmtsOf_size _
  · refine ⟨fun _ hread => ?_, fun _ hdest => ?_, fun _ htarget => ?_, rfl, fun _ _ _ heq => ?_,
      fun _ heq => ?_⟩
    · cases hread
    · cases hdest
    · cases htarget
    · cases heq
    · cases heq
  -- the block of a label starts empty
  · intro other command hother
    rw [Body.stmtsOf_size] at hother
    cases hother
  · rw [label_labels h.tidy, Command.label.injEq]
    by_cases hself : label = other
    · subst hself
      rw [if_pos ⟨rfl, hknown⟩, hunplaced]
      simp [eq_comm]
    · rw [if_neg fun hindex => hself (congrArg Key.mk hindex.1)]
      exact (or_iff_left fun h => hself h.1).symm

/-- Placing a label adds one statement, which is the label. -/
theorem mem_label (h : Sound bound early) {label : Label}
    (hunplaced : early.body.labels[label.index]? = some none) {stmt : Inst}
    (hstmt : stmt ∈ (early.label label).2.body.stmts) : stmt ∈ early.body.stmts ∨
      (stmt = ⟨early.body.records.size⟩ ∧
        (early.label label).2.body.command? stmt = some (.label label)) := by
  have happends := h.label_appends hunplaced
  rcases happends.mem hstmt with hold | rfl
  · exact Or.inl hold
  · exact Or.inr ⟨rfl, happends.command⟩

/-- **A FINISHED BODY IS REGULAR**: all labels are placed, and control does not
    leave the end. -/
theorem regular (h : Sound bound early)
    (hplaced : ∀ i < early.body.labels.size, ∃ block, early.body.labels[i]? = some (some block))
    (hending : ∃ stmt command, early.body.lastStmt? = some stmt ∧
      early.body.command? stmt = some command ∧ command.isTerminator = true) :
    early.body.Regular where
  wellFormed :=
    { commands := by
        intro stmt hstmt
        obtain ⟨command, hcommand, hproper⟩ := h.commands stmt hstmt
        refine ⟨command, hcommand, hproper.reads, hproper.dest, fun label hlabel => ?_⟩
        obtain ⟨block, hblock⟩ := hplaced label.index (hproper.target label hlabel)
        obtain ⟨first, rest, hstmts, -⟩ := h.labelled hblock
        refine ⟨block, hblock, Nat.lt_of_not_le fun hle => ?_⟩
        rw [Body.stmtsOf_eq_nil hle] at hstmts
        cases hstmts
      distinct := h.distinct
      owned := h.owned
      enders := h.enders
      ending := hending
      interned := h.interned }
  unused {stmt loc} hstmt huse := by
    obtain ⟨command, hcommand, hproper⟩ := h.commands stmt hstmt
    exact hproper.unused loc (Option.some.inj (hcommand.symm.trans huse))
  labelled := h.labelled
  placed := h.placed

/-- **A FINISHED BODY IS FIT** for emission. -/
theorem fit (h : Sound bound early) (hbound : bound ≤ 2147483648)
    (hregular : early.body.Regular) : early.body.Fit where
  wellFormed := hregular.wellFormed
  unbound := h.unbound
  unsaved hstmt hcommand := by
    obtain ⟨_, hcommand', hproper⟩ := h.commands _ hstmt
    cases hcommand.symm.trans hcommand'
    exact hproper.unsaved
  labelled := hregular.labelled
  placed := hregular.placed
  params hstmt hcommand := by
    obtain ⟨_, hcommand', hproper⟩ := h.commands _ hstmt
    cases hcommand.symm.trans hcommand'
    exact Nat.lt_of_lt_of_le (hproper.param _ _ _ rfl) hbound

end Sound

end Builder

end DecafBackend
