import DecafBackend.Proofs.Coloring
import DecafBackend.Proofs.DeadSavesEdits
import DecafBackend.Proofs.Resaving

/-! # Register allocation loses no value

    A value stays where it was saved until it is read: the save and the read use
    one register or the slot of the location, nothing writes that place in
    between, and every call in between preserves it.

    * `Body.Storage`, `Body.Way` — places of accesses, and ways of control
    * `Binds`, `bindWebs_ok` — accesses are bound to the registers of their webs
    * `Allocated` — what allocation finds out about a body
    * `allocateRegisters_keeps_values` — the main result -/

namespace DecafBackend

namespace Body

/-! ## Places and ways -/

/-- Where an access finds its location. -/
inductive Storage
  /-- In a register. -/
  | register (register : Register)
  /-- In the memory that belongs to a location: its slot, if it is tracked. -/
  | memory (loc : Loc)

/-- Where an access finds its location. -/
def storage (body : Body) (access : Access) : Storage :=
  match body.bindings.get? access with
  | some register => .register register
  | none => .memory access.loc

/-- Control goes from a point over some statements to a point. -/
inductive Way (body : Body) : Point → List Inst → Point → Prop
  /-- It stays where it is. -/
  | stay (point : Point) : Way body point [] point
  /-- It goes over a statement. -/
  | pass {point next last : Point} {stmt : Inst} {rest passed : List Inst}
      (hrest : point.rest = stmt :: rest) (hleads : body.Leads point next)
      (h : Way body next passed last) : Way body point (stmt :: passed) last
  /-- It leaves the end of a block. -/
  | leave {point next last : Point} {passed : List Inst} (hrest : point.rest = [])
      (hleads : body.Leads point next) (h : Way body next passed last) : Way body point passed last

/-- A statement saves into a location. -/
def Saves (body : Body) (stmt : Inst) (loc : Loc) : Prop :=
  ∃ value, body.command? stmt = some (.save value loc)

/-- A statement makes a call that preserves some registers. -/
def CallsSaving (body : Body) (stmt : Inst) (saved : List Register) : Prop :=
  ∃ command call target args isExternal, body.command? stmt = some command ∧
    command.callInst? stmt = some call ∧
    body.records[call.index]? = some (.call target args isExternal saved)

variable {body : Body}

/-- A way without a save of a location spares it. -/
theorem Way.spares {loc : Loc} {point last : Point} {passed : List Inst}
    (h : body.Way point passed last) (hspared : ∀ stmt ∈ passed, ¬ body.Saves stmt loc) :
    body.Spares loc point last := by
  induction h with
  | stay point => exact .refl point
  | @pass point next last stmt rest passed hrest hleads _ ih =>
      refine .step hleads ?_ (ih fun other hother => hspared other (List.mem_cons_of_mem _ hother))
      rintro ⟨stmt', rest', command, hrest', hcommand, hdest⟩
      rw [hrest] at hrest'
      cases hrest'
      obtain ⟨value, rfl⟩ := Command.eq_save hdest
      exact hspared stmt List.mem_cons_self ⟨value, hcommand⟩
  | leave hrest hleads _ ih => exact .step hleads (not_writes_of_nil hrest) (ih hspared)

/-- A read at the end of a way that spares its location is live behind every
    statement on the way that lets control through. -/
theorem Way.live (wf : WellFormed body) {access : Access} {point last : Point}
    {passed : List Inst} (h : body.Way point passed last)
    (hat : body.At point.block point.rest)
    (hspared : ∀ stmt ∈ passed, ¬ body.Saves stmt access.loc) (hreads : body.ReadsBy access last) :
    ∀ stmt ∈ passed, ∃ block rest, body.At block (stmt :: rest) ∧
      ∀ command, body.command? stmt = some command → command.endsBlock = false →
        body.Live access ⟨block, rest⟩ := by
  induction h with
  | stay point =>
      intro stmt hstmt
      cases hstmt
  | @pass point next last stmt rest passed hrest hleads hway ih =>
      have hspared' : ∀ other ∈ passed, ¬ body.Saves other access.loc :=
        fun other hother => hspared other (List.mem_cons_of_mem _ hother)
      intro other hother
      rcases List.mem_cons.mp hother with rfl | hother
      · obtain ⟨block, points⟩ := point
        dsimp only at hrest
        subst hrest
        refine ⟨block, rest, hat, fun command hcommand hends => ?_⟩
        -- the next point is behind the statement
        cases hleads with
        | fall _ _ => exact ⟨last, hway.spares hspared', hreads⟩
        | jump hcommand' hlabel _ =>
            rw [hcommand] at hcommand'
            cases hcommand'
            cases command with
            -- a command that lets control through and still jumps is a branch, and that
            -- ends the block
            | jump | branch => cases hends
            | save | call | use | label | ret | exit => cases hlabel
      · exact ih (wf.at_leads hat hleads) hspared' hreads other hother
  | leave hrest hleads hway ih => exact ih (wf.at_leads hat hleads) hspared hreads

end Body

namespace Body.Resaved

variable {saved : Inst → List Register} {body after : Body} (h : Resaved saved body after)
include h

/-- Giving calls registers to preserve changes no save. -/
theorem saves {stmt : Inst} {loc : Loc} : after.Saves stmt loc ↔ body.Saves stmt loc := by
  rw [Saves, h.command?, Saves]
  cases body.command? stmt with
  | none => simp
  | some command => cases command <;> simp [Command.withSaved]

end Body.Resaved

/-! ## Bindings -/

namespace Webs

/-- A web has an access. -/
def Holds (webs : Webs) (key : WebKey) (access : Access) : Prop :=
  ∃ web, webs.webs[key.index]? = some web ∧ web.loc = access.loc ∧
    (access.inst ∈ web.defs ∨ access.inst ∈ web.uses)

variable {webs : Webs} {body : Body} {liveness : Liveness}

/-- A web holds the reads that it is looked up for. -/
theorem Computed.holds_read (h : Computed body liveness webs) {access : Access} {key : WebKey}
    (huse : webs.byUse[access]? = some key) : webs.Holds key access := by
  obtain ⟨web, hweb, hloc, hmem⟩ := h.indexed.byUse.mp huse
  exact ⟨web, hweb, hloc, Or.inr hmem⟩

/-- A web holds the save that it is looked up for, at its own location. -/
theorem Computed.holds_save (h : Computed body liveness webs) {stmt : Inst} {loc : Loc}
    {key : WebKey} (hdef : webs.byDef[stmt]? = some key) (hloc : webs.loc? key = some loc) :
    webs.Holds key ⟨stmt, loc⟩ := by
  obtain ⟨web, hweb, hmem⟩ := h.indexed.byDef.mp hdef
  rw [loc?, hweb] at hloc
  exact ⟨web, hweb, Option.some.inj hloc, Or.inl hmem⟩

/-- What a web holds is looked up as one of its saves or as one of its reads. -/
theorem Holds.cases (h : Computed body liveness webs) {key : WebKey} {access : Access}
    (hheld : webs.Holds key access) :
    webs.byDef[access.inst]? = some key ∨ webs.byUse[access]? = some key := by
  obtain ⟨web, hweb, hloc, hdef | huse⟩ := hheld
  · exact Or.inl (h.indexed.byDef.mpr ⟨web, hweb, hdef⟩)
  · exact Or.inr (h.indexed.byUse.mpr ⟨web, hweb, hloc, huse⟩)

/-- Definitions are saves. -/
theorem Computed.dest_of_byDef (h : Computed body liveness webs) {stmt : Inst} {key : WebKey}
    (hdef : webs.byDef[stmt]? = some key) :
    ∃ record loc, body.records[stmt.index]? = some record ∧ record.dest? = some loc := by
  obtain ⟨-, command, loc, hcommand, hdest⟩ := h.byDef hdef
  obtain ⟨record, hrecord, hdest', -⟩ := Body.record_command hcommand
  exact ⟨record, loc, hrecord, hdest'.trans (Body.trackedDest?_eq_some.mp hdest).1⟩

/-- Reads are not. -/
theorem Computed.dest_of_byUse (wf : WellFormed body) (h : Computed body liveness webs)
    {access : Access} {key : WebKey} (huse : webs.byUse[access]? = some key) :
    ∃ record, body.records[access.inst.index]? = some record ∧ record.dest? = none := by
  obtain ⟨stmt, hstmt, hread⟩ := List.mem_flatMap.mp (h.byUse huse).1
  obtain ⟨command, hcommand, -⟩ := wf.commands stmt hstmt
  rw [Body.readsOf_eq hcommand] at hread
  exact Body.record_reads hcommand hread

/-- The web of a save is looked up as the web of a definition. -/
theorem Holds.byDef (wf : WellFormed body) (h : Computed body liveness webs) {key : WebKey}
    {stmt : Inst} {loc : Loc} (hheld : webs.Holds key ⟨stmt, loc⟩) (hsaves : body.Saves stmt loc) :
    webs.byDef[stmt]? = some key := by
  refine (hheld.cases h).resolve_right fun huse => ?_
  obtain ⟨value, hcommand⟩ := hsaves
  obtain ⟨record, hrecord, hdest, -⟩ := Body.record_command hcommand
  obtain ⟨record', hrecord', hnone⟩ := h.dest_of_byUse wf huse
  rw [hrecord] at hrecord'
  cases hrecord'
  rw [hnone] at hdest
  cases hdest

/-- The web of a read is looked up as the web of a read. -/
theorem Holds.byUse (h : Computed body liveness webs) {key : WebKey} {access : Access}
    {point : Point} (hheld : webs.Holds key access) (hlive : body.Live access point) :
    webs.byUse[access]? = some key := by
  refine (hheld.cases h).resolve_left fun hdef => ?_
  obtain ⟨-, -, stmt, rest, command, -, hcommand, hread⟩ := hlive
  obtain ⟨record, hrecord, hnone⟩ := Body.record_reads hcommand hread
  obtain ⟨record', loc, hrecord', hdest⟩ := h.dest_of_byDef hdef
  rw [hrecord] at hrecord'
  cases hrecord'
  rw [hnone] at hdest
  cases hdest

/-- Webs have accesses of tracked locations. -/
theorem Holds.tracks (h : Computed body liveness webs) {key : WebKey} {access : Access}
    (hheld : webs.Holds key access) : body.tracks access.loc = true := by
  rcases hheld.cases h with hdef | huse
  · obtain ⟨hstmt, command, loc, hcommand, hdest⟩ := h.byDef hdef
    obtain ⟨key', hdef', hloc, -⟩ := h.definition hstmt hcommand hdest
    obtain rfl := Option.some.inj (hdef.symm.trans hdef')
    obtain ⟨web, hweb, hsame, -⟩ := hheld
    rw [loc?, hweb] at hloc
    rw [← hsame, Option.some.inj hloc]
    exact (Body.trackedDest?_eq_some.mp hdest).2
  · exact (h.byUse huse).2

/-- An access is in one web at most: no record both saves and reads. -/
theorem Computed.holds_unique (wf : WellFormed body) (h : Computed body liveness webs)
    {access : Access} {a b : WebKey} (ha : webs.Holds a access) (hb : webs.Holds b access) :
    a = b := by
  have hnot : ∀ {a b : WebKey}, webs.byDef[access.inst]? = some a →
      webs.byUse[access]? = some b → False := by
    intro a b hdef huse
    obtain ⟨record, hrecord, hnone⟩ := h.dest_of_byUse wf huse
    obtain ⟨record', loc, hrecord', hdest⟩ := h.dest_of_byDef hdef
    rw [hrecord] at hrecord'
    cases hrecord'
    rw [hnone] at hdest
    cases hdest
  rcases ha.cases h with hdefA | huseA
  · rcases hb.cases h with hdefB | huseB
    · exact Option.some.inj (hdefA.symm.trans hdefB)
    · exact (hnot hdefA huseB).elim
  · rcases hb.cases h with hdefB | huseB
    · exact (hnot hdefB huseA).elim
    · exact Option.some.inj (huseA.symm.trans huseB)

/-- Webs of different locations are different. -/
theorem Holds.ne {a b : WebKey} {access other : Access} (ha : webs.Holds a access)
    (hb : webs.Holds b other) (hne : access.loc ≠ other.loc) : a ≠ b := by
  rintro rfl
  obtain ⟨web, hweb, hloc, -⟩ := ha
  obtain ⟨web', hweb', hloc', -⟩ := hb
  rw [hweb] at hweb'
  cases hweb'
  exact hne (hloc.symm.trans hloc')

end Webs

namespace Bindings

/-- Binding an access changes what it is bound to, and nothing else. -/
theorem get?_bind {bindings : Bindings} {bound access : Access} {register : Register} :
    (bindings.bind bound register).get? access =
      if bound = access then some register else bindings.get? access :=
  Maps.getElem?_insert

/-- Binding a web binds its saves and its reads, and nothing else. -/
theorem get?_bindWeb {bindings : Bindings} {web : Web} {register : Register} {access : Access} :
    (bindings.bindWeb web register).get? access =
      if web.loc = access.loc ∧ (access.inst ∈ web.defs ∨ access.inst ∈ web.uses) then some register
      else bindings.get? access := by
  have hfold : ∀ (insts : List Inst) (bindings : Bindings),
      (insts.foldl (fun bindings inst => bindings.bind ⟨inst, web.loc⟩ register) bindings).get?
        access = if web.loc = access.loc ∧ access.inst ∈ insts then some register
          else bindings.get? access := by
    intro insts
    induction insts with
    | nil => simp
    | cons inst insts ih =>
        intro bindings
        rw [List.foldl_cons, ih, get?_bind]
        obtain ⟨i, loc⟩ := access
        simp only [Access.mk.injEq, List.mem_cons]
        by_cases hloc : web.loc = loc
        · by_cases hmem : i ∈ insts
          · simp [hloc, hmem]
          · simp [hloc, hmem, eq_comm]
        · simp [hloc]
  rw [bindWeb, hfold]
  simp only [List.mem_append, Std.ExtTreeSet.mem_toList]

/-- The bound registers that a method has to preserve are recorded, and all of the
    recorded ones are among some registers. -/
structure Preserves (registers : List Register) (bindings : Bindings) : Prop where
  recorded : ∀ {access : Access} {register : Register}, bindings.get? access = some register →
    register.isCalleeSaved = true → register ∈ bindings.calleeSaved
  among : ∀ register ∈ bindings.calleeSaved,
    register ∈ registers ∧ register.isCalleeSaved = true

namespace Preserves

variable {registers : List Register}

/-- Without bindings no register has to be preserved. -/
theorem start : Preserves registers {} where
  recorded h := by cases h
  among _ h := absurd h Std.ExtTreeSet.not_mem_empty

/-- A binding adds its register, if that has to be preserved. -/
theorem bind {bindings : Bindings} (h : Preserves registers bindings) (access : Access)
    {register : Register} (hregister : register ∈ registers) :
    Preserves registers (bindings.bind access register) := by
  have hmem : ∀ other, other ∈ (bindings.bind access register).calleeSaved ↔
      (other = register ∧ register.isCalleeSaved = true) ∨ other ∈ bindings.calleeSaved := by
    intro other
    rw [Bindings.bind]
    dsimp only
    split
    · next hsaved => rw [Maps.set_mem_insert, hsaved, and_iff_left rfl]
    · next hnot => exact ⟨Or.inr, fun h => h.resolve_left fun hself => hnot hself.2⟩
  constructor
  · intro other bound hbound hsaved
    rw [get?_bind] at hbound
    rw [hmem]
    split at hbound
    · cases hbound
      exact Or.inl ⟨rfl, hsaved⟩
    · exact Or.inr (h.recorded hbound hsaved)
  · intro other hother
    rcases (hmem other).mp hother with ⟨rfl, hsaved⟩ | hother
    · exact ⟨hregister, hsaved⟩
    · exact h.among other hother

/-- A web adds one register only. -/
theorem bindWeb {bindings : Bindings} (h : Preserves registers bindings) (web : Web)
    {register : Register} (hregister : register ∈ registers) :
    Preserves registers (bindings.bindWeb web register) := by
  rw [Bindings.bindWeb]
  generalize web.defs.toList ++ web.uses.toList = insts
  induction insts generalizing bindings with
  | nil => exact h
  | cons inst insts ih => exact ih (h.bind ⟨inst, web.loc⟩ hregister)

end Preserves

end Bindings

/-- The accesses of some webs are bound to the registers of the webs, and nothing
    else is bound. -/
def Binds (webs : Webs) (colored : List (WebKey × Register)) (bindings : Bindings) : Prop :=
  ∀ access register, bindings.get? access = some register ↔
    ∃ key, (key, register) ∈ colored ∧ webs.Holds key access

section

variable {webs : Webs} (hone : ∀ {access : Access} {a b : WebKey}, webs.Holds a access →
  webs.Holds b access → a = b)
include hone

/-- One web more. -/
theorem Binds.add {colored : List (WebKey × Register)} {bindings : Bindings}
    (h : Binds webs colored bindings) {key : WebKey} {register : Register}
    (hkey : ∀ other, (key, other) ∈ colored → other = register) {web : Web}
    (hweb : webs.webs[key.index]? = some web) :
    Binds webs (colored ++ [(key, register)]) (bindings.bindWeb web register) := by
  intro access other
  have hholds : webs.Holds key access ↔
      web.loc = access.loc ∧ (access.inst ∈ web.defs ∨ access.inst ∈ web.uses) := by
    simp only [Webs.Holds, hweb, Option.some.injEq, exists_eq_left']
  rw [Bindings.get?_bindWeb]
  split
  · next hheld =>
      rw [← hholds] at hheld
      constructor
      · intro heq
        cases heq
        exact ⟨key, List.mem_append_right _ List.mem_cons_self, hheld⟩
      -- an access has one web, so an earlier pair that binds it is a pair of this very web
      · rintro ⟨key', hmem, hheld'⟩
        obtain rfl := hone hheld hheld'
        rcases List.mem_append.mp hmem with hmem | hmem
        · rw [hkey other hmem]
        · cases List.mem_singleton.mp hmem
          rfl
  · next hnot =>
      rw [← hholds] at hnot
      rw [h]
      constructor
      · rintro ⟨key', hmem, hheld⟩
        exact ⟨key', List.mem_append_left _ hmem, hheld⟩
      · rintro ⟨key', hmem, hheld⟩
        rcases List.mem_append.mp hmem with hmem | hmem
        · exact ⟨key', hmem, hheld⟩
        · cases List.mem_singleton.mp hmem
          exact absurd hheld hnot

/-- One web after the other is bound. -/
theorem bindWebs_ok {seen colored : List (WebKey × Register)}
    (hkeys : ∀ {key : WebKey} {a b : Register}, (key, a) ∈ seen ++ colored →
      (key, b) ∈ seen ++ colored → a = b)
    (hlt : ∀ pair ∈ colored, pair.1.index < webs.webs.size) {bindings : Bindings}
    (h : Binds webs seen bindings) : ∃ after,
      colored.foldlM (fun (bindings : Bindings) pair => do
        return bindings.bindWeb (← webs.get pair.1) pair.2) bindings = Except.ok after ∧
      Binds webs (seen ++ colored) after := by
  -- by induction on the webs that are left, which move to those seen one by one
  induction colored generalizing seen bindings with
  | nil => exact ⟨bindings, rfl, by rwa [List.append_nil]⟩
  | cons pair colored ih =>
      obtain ⟨key, register⟩ := pair
      have hweb := Array.getElem?_eq_getElem (hlt _ List.mem_cons_self)
      have happend : seen ++ (key, register) :: colored =
          (seen ++ [(key, register)]) ++ colored := by
        rw [List.append_assoc]
        rfl
      have hnext : Binds webs (seen ++ [(key, register)]) _ :=
        h.add hone (fun other hother =>
          hkeys (List.mem_append_left _ hother) (List.mem_append_right _ List.mem_cons_self)) hweb
      rw [happend] at hkeys ⊢
      obtain ⟨after, hafter, hbinds⟩ :=
        ih hkeys (fun pair hpair => hlt pair (List.mem_cons_of_mem _ hpair)) hnext
      refine ⟨after, ?_, hbinds⟩
      rw [List.foldlM_cons, Webs.get, hweb]
      exact hafter

end

section

variable {webs : Webs} {coloring : Coloring} {bindings : Bindings}
  (hone : ∀ {access : Access} {a b : WebKey}, webs.Holds a access → webs.Holds b access → a = b)
  (h : Binds webs coloring.colors.toList bindings)
include h

include hone in
/-- An access is bound to the register of its web. -/
theorem Binds.get?_eq {key : WebKey} {access : Access} (hheld : webs.Holds key access) :
    bindings.get? access = coloring.colors[key]? := by
  refine Option.ext fun register => (h access register).trans ?_
  constructor
  · rintro ⟨key', hmem, hheld'⟩
    obtain rfl := hone hheld hheld'
    exact Std.ExtTreeMap.mem_toList_iff_getElem?_eq_some.mp hmem
  · intro hcolor
    exact ⟨key, Std.ExtTreeMap.mem_toList_iff_getElem?_eq_some.mpr hcolor, hheld⟩

/-- A bound access is held by a web that was colored with its register. -/
theorem Binds.holds {access : Access} {register : Register}
    (hbound : bindings.get? access = some register) :
    ∃ key, coloring.colors[key]? = some register ∧ webs.Holds key access := by
  obtain ⟨key, hmem, hheld⟩ := (h access register).mp hbound
  exact ⟨key, Std.ExtTreeMap.mem_toList_iff_getElem?_eq_some.mp hmem, hheld⟩

end

/-- What is usable of a palette are its allocatable registers. -/
theorem mem_usablePalette {palette : List Register} {register : Register}
    (h : register ∈ usablePalette palette) :
    register ∈ palette ∧ register.isAllocatable = true := by
  rw [usablePalette, List.mem_eraseDups] at h
  exact List.mem_filter.mp h

/-- A call preserves the colors of what is live across it, so far as callees may change
    them. -/
theorem Coloring.mem_savedAcross {coloring : Coloring} {live : Std.ExtTreeSet WebKey}
    {register : Register} : register ∈ coloring.savedAcross live ↔
      ∃ key ∈ live, coloring.colors[key]? = some register ∧ register.isCallerSaved = true := by
  have hstep : ∀ (found : Std.ExtTreeSet Register) (key : WebKey),
      register ∈ (match coloring.colors[key]? with
        | some register => if register.isCallerSaved then found.insert register else found
        | none => found) ↔
          register ∈ found ∨
            (coloring.colors[key]? = some register ∧ register.isCallerSaved = true) := by
    intro found key
    cases coloring.colors[key]? with
    | none => simp
    | some other =>
        rw [Option.some.injEq]
        dsimp only
        split
        · next hother =>
            rw [Maps.set_mem_insert, or_comm, eq_comm]
            refine or_congr_right (iff_self_and.mpr ?_)
            rintro rfl
            exact hother
        · next hother =>
            refine ⟨Or.inl, fun hmem => hmem.resolve_right ?_⟩
            rintro ⟨rfl, hsaved⟩
            exact hother hsaved
  rw [savedAcross, Std.ExtTreeSet.mem_toList]
  refine (Maps.set_mem_foldl_step hstep).trans ?_
  rw [or_iff_right Std.ExtTreeSet.not_mem_empty]
  simp only [Std.ExtTreeSet.mem_toList]

/-! ## Values keep their places -/

/-- Every value that is live is kept where it will be read: a save goes where the
    reads that it reaches look, and nowhere else that matters, and calls preserve
    the rest. -/
structure Body.KeepsValues (body : Body) : Prop where
  allocatable : ∀ {access : Access} {register : Register},
    body.bindings.get? access = some register → register.isAllocatable = true
  same : ∀ {block rest stmt loc access}, body.At block (stmt :: rest) → body.Saves stmt loc →
    body.tracks loc = true → body.Live access ⟨block, rest⟩ → access.loc = loc →
    body.storage ⟨stmt, loc⟩ = body.storage access
  apart : ∀ {block rest stmt loc access}, body.At block (stmt :: rest) → body.Saves stmt loc →
    body.tracks access.loc = true → body.Live access ⟨block, rest⟩ → access.loc ≠ loc →
    body.storage ⟨stmt, loc⟩ ≠ body.storage access
  preserved : ∀ {block rest stmt saved access register}, body.At block (stmt :: rest) →
    body.CallsSaving stmt saved → body.tracks access.loc = true → body.Live access ⟨block, rest⟩ →
    ¬ body.Saves stmt access.loc → body.bindings.get? access = some register →
    register.isCallerSaved = true → register ∈ saved

/-- A call of a resaved body is a call of the body, which preserves what was decided for it. -/
theorem Body.Resaved.of_callsSaving {saved : Inst → List Register} {body after : Body}
    (h : body.Resaved saved after) {stmt : Inst} {registers : List Register}
    (hcalls : after.CallsSaving stmt registers) :
    ∃ command call, body.command? stmt = some command ∧ command.callInst? stmt = some call ∧
      registers = saved call := by
  obtain ⟨command, call, target, args, isExternal, hcommand, hcall, hrecord⟩ := hcalls
  obtain ⟨old, hold, rfl⟩ := h.command_of hcommand
  rw [Command.callInst?_withSaved] at hcall
  rw [h.records] at hrecord
  obtain ⟨record, -, hsaved⟩ := Option.map_eq_some_iff.mp hrecord
  cases record with
  | call =>
      cases hsaved
      exact ⟨old, call, hold, hcall, rfl⟩
  | load | param | unary | binary | save | use | label | jump | branch | ret | exit => cases hsaved

/-- A body with bindings whose calls preserve the registers of the webs that
    survive them. -/
def rewritten (body : Body) (graph : InterferenceGraph) (coloring : Coloring)
    (bindings : Bindings) : Body :=
  graph.acrossCalls.toList.foldl
    (fun body change => body.setSaved change.1 (coloring.savedAcross change.2))
    { body with bindings }

/-- The registers that the calls of a rewritten body preserve. -/
def savedAtCalls (body : Body) (graph : InterferenceGraph) (coloring : Coloring) :
    Inst → List Register :=
  Body.savedAfter coloring.savedAcross
    (fun inst => (body.records[inst.index]?.map Record.saved).getD []) graph.acrossCalls.toList

section

variable (body : Body) (graph : InterferenceGraph) (coloring : Coloring) (bindings : Bindings)

/-- The rewritten body differs from the body in what its calls preserve. -/
theorem rewritten_resaved :
    body.Resaved (savedAtCalls body graph coloring) (rewritten body graph coloring bindings) :=
  (Body.Resaved.start body bindings).foldl graph.acrossCalls.toList

/-- The rewritten body has the bindings that were found. -/
theorem bindings_rewritten : (rewritten body graph coloring bindings).bindings = bindings :=
  Body.bindings_foldl { body with bindings } graph.acrossCalls.toList

/-- A call preserves what is live across it. -/
theorem savedAtCalls_eq {call : Inst} {survivors : Std.ExtTreeSet WebKey}
    (h : graph.acrossCalls[call]? = some survivors) :
    savedAtCalls body graph coloring call = coloring.savedAcross survivors := by
  refine Body.savedAfter_eq (fun other hother => ?_)
    (Or.inr (Std.ExtTreeMap.mem_toList_iff_getElem?_eq_some.mpr h))
  rw [Std.ExtTreeMap.mem_toList_iff_getElem?_eq_some, h] at hother
  exact (Option.some.inj hother).symm

end

/-- What allocation finds out about a body. -/
structure Allocated (body : Body) (palette : List Register) (flow : FlowGraph)
    (liveness : Liveness) (webs : Webs) (graph : InterferenceGraph) (coloring : Coloring)
    (bindings : Bindings) : Prop where
  lives : liveness.Computed body flow
  computed : webs.Computed body liveness
  covers : ∀ {block rest stmt command live}, body.At block (stmt :: rest) →
    body.command? stmt = some command →
    LiveReads.Ahead body liveness.solution ⟨block, rest⟩ live →
    graph.Covers webs stmt command live
  proper : coloring.Proper graph (usablePalette palette)
  binds : Binds webs coloring.colors.toList bindings
  preserves : bindings.Preserves (usablePalette palette)

namespace Allocated

variable {body : Body} (wf : WellFormed body) {palette : List Register} {flow : FlowGraph}
  {liveness : Liveness} {webs : Webs} {graph : InterferenceGraph} {coloring : Coloring}
  {bindings : Bindings}
  (h : Allocated body palette flow liveness webs graph coloring bindings)
include wf h

/-- A read that is live behind a statement is in a live web there. -/
theorem mem_liveWebs {block : Block} {rest : List Inst} {stmt : Inst} {command : Command}
    {access : Access} {key : WebKey} (hat : body.At block (stmt :: rest))
    (hcommand : body.command? stmt = some command) (hfalls : command.isTerminator = false)
    (htracks : body.tracks access.loc = true) (hlive : body.Live access ⟨block, rest⟩)
    (hheld : webs.Holds key access) :
    ∃ live, graph.Covers webs stmt command live ∧
      key ∈ InterferenceGraph.liveWebs webs live := by
  have hatRest := hat.next hcommand hfalls
  obtain ⟨live, hahead⟩ := h.lives.ahead_ok wf hatRest
  refine ⟨live, h.covers hat hcommand hahead, InterferenceGraph.mem_liveWebs.mpr ⟨access, ?_, ?_⟩⟩
  · exact LiveReads.mem_of_live wf h.lives.flow h.lives.settled h.lives.within htracks hatRest
      hlive hahead
  · exact hheld.byUse h.computed hlive

/-- A save and the reads that it reaches are bound to one register, or not at all. -/
theorem get?_eq {block : Block} {rest : List Inst} {stmt : Inst} {access : Access}
    (hat : body.At block (stmt :: rest)) (hsaves : body.Saves stmt access.loc)
    (htracks : body.tracks access.loc = true) (hlive : body.Live access ⟨block, rest⟩) :
    bindings.get? ⟨stmt, access.loc⟩ = bindings.get? access := by
  have hone : ∀ {access : Access} {a b : WebKey}, webs.Holds a access → webs.Holds b access →
      a = b := fun ha hb => h.computed.holds_unique wf ha hb
  obtain ⟨value, hcommand⟩ := hsaves
  have hdest : body.trackedDest? (.save value access.loc) = some access.loc :=
    Body.trackedDest?_eq_some.mpr ⟨rfl, htracks⟩
  obtain ⟨key, hdef, hloc, hreads⟩ :=
    h.computed.definition (Body.mem_stmts_of_stmtsOf hat.mem) hcommand hdest
  have hread := hreads _ (h.lives.mem_reachedBy wf hat hcommand hdest hlive)
  rw [h.binds.get?_eq hone (h.computed.holds_save hdef hloc),
    h.binds.get?_eq hone (h.computed.holds_read hread)]

/-- A save is never bound to the register of a live read of another location. -/
theorem get?_ne {block : Block} {rest : List Inst} {stmt : Inst} {loc : Loc} {access : Access}
    {register : Register} (hat : body.At block (stmt :: rest)) (hsaves : body.Saves stmt loc)
    (htracks : body.tracks access.loc = true) (hlive : body.Live access ⟨block, rest⟩)
    (hne : access.loc ≠ loc) (hbound : bindings.get? access = some register) :
    bindings.get? ⟨stmt, loc⟩ ≠ some register := by
  intro hsame
  obtain ⟨a, hcolorA, hheldA⟩ := h.binds.holds hbound
  obtain ⟨b, hcolorB, hheldB⟩ := h.binds.holds hsame
  have hdef := hheldB.byDef wf h.computed hsaves
  obtain ⟨value, hcommand⟩ := hsaves
  obtain ⟨live, hcovers, hmem⟩ := h.mem_liveWebs wf hat hcommand rfl htracks hlive hheldA
  have hab : a ≠ b := hheldA.ne hheldB hne
  obtain ⟨hforth, hback⟩ := hcovers.edges hdef hmem hab
  exact h.proper.apart hab hback hforth hcolorA hcolorB

/-- The web of a live read survives a call, unless the result replaces its value. -/
theorem survives {block : Block} {rest : List Inst} {stmt call : Inst} {command : Command}
    {access : Access} {register : Register} (hat : body.At block (stmt :: rest))
    (hcommand : body.command? stmt = some command) (hcall : command.callInst? stmt = some call)
    (htracks : body.tracks access.loc = true) (hlive : body.Live access ⟨block, rest⟩)
    (hsaves : ¬ body.Saves stmt access.loc) (hbound : bindings.get? access = some register)
    (hcaller : register.isCallerSaved = true) :
    ∃ survivors, graph.acrossCalls[call]? = some survivors ∧
      register ∈ coloring.savedAcross survivors := by
  -- the web is live behind the call, and the call does not start it, so it is live across
  have hfalls := Command.isTerminator_eq_false (Command.endsBlock_of_callInst hcall)
  obtain ⟨key, hcolor, hheld⟩ := h.binds.holds hbound
  obtain ⟨live, hcovers, hmem⟩ := h.mem_liveWebs wf hat hcommand hfalls htracks hlive hheld
  obtain ⟨survivors, hsurvivors, hall⟩ := hcovers.calls hcall
  refine ⟨survivors, hsurvivors,
    Coloring.mem_savedAcross.mpr ⟨key, hall key hmem fun hdef => ?_, hcolor, hcaller⟩⟩
  -- a statement that defines the web saves into its location
  obtain ⟨hstmt, command', loc, hcommand', hdest⟩ := h.computed.byDef hdef
  obtain ⟨key', hdef', hloc, -⟩ := h.computed.definition hstmt hcommand' hdest
  rw [hdef] at hdef'
  cases hdef'
  have hsame : loc = access.loc := Classical.byContradiction fun hne =>
    (h.computed.holds_save hdef hloc).ne hheld hne rfl
  obtain ⟨hdest?, -⟩ := Body.trackedDest?_eq_some.mp hdest
  obtain ⟨value, rfl⟩ := Command.eq_save hdest?
  exact hsaves ⟨value, hsame ▸ hcommand'⟩

/-- Every call is recorded with the webs that survive it. -/
theorem survivors {stmt call : Inst} {command : Command} (hstmt : stmt ∈ body.stmts)
    (hcommand : body.command? stmt = some command) (hcall : command.callInst? stmt = some call) :
    ∃ survivors, graph.acrossCalls[call]? = some survivors := by
  have hfalls := Command.isTerminator_eq_false (Command.endsBlock_of_callInst hcall)
  obtain ⟨block, -, hmem⟩ := Body.mem_stmts.mp hstmt
  obtain ⟨before, rest, hsplit⟩ := List.append_of_mem hmem
  have hat := wf.at_of_split hsplit
  obtain ⟨live, hahead⟩ := h.lives.ahead_ok wf (hat.next hcommand hfalls)
  obtain ⟨survivors, hsurvivors, -⟩ := (h.covers hat hcommand hahead).calls hcall
  exact ⟨survivors, hsurvivors⟩

/-- A call of the rewritten body preserves registers of webs, whatever it preserved before. -/
theorem callsSaving {stmt : Inst} {saved : List Register} (hstmt : stmt ∈ body.stmts)
    (hcalls : (rewritten body graph coloring bindings).CallsSaving stmt saved) :
    ∃ survivors, saved = coloring.savedAcross survivors := by
  obtain ⟨command, call, hcommand, hcall, rfl⟩ :=
    (rewritten_resaved body graph coloring bindings).of_callsSaving hcalls
  obtain ⟨survivors, hsurvivors⟩ := h.survivors wf hstmt hcommand hcall
  exact ⟨survivors, savedAtCalls_eq body graph coloring hsurvivors⟩

/-- **VALUES KEEP THEIR PLACES** in the rewritten body. -/
theorem keepsValues : (rewritten body graph coloring bindings).KeepsValues := by
  have hresaved := rewritten_resaved body graph coloring bindings
  have hbindings := bindings_rewritten body graph coloring bindings
  have hplace : ∀ access, (rewritten body graph coloring bindings).storage access =
      match bindings.get? access with
      | some register => .register register
      | none => .memory access.loc := by
    intro access
    rw [Body.storage, hbindings]
  -- registers first, then one place for a value, then places of their own, then calls
  refine ⟨?_, ?_, ?_, ?_⟩
  · intro access register hbound
    rw [hbindings] at hbound
    obtain ⟨key, hcolor, -⟩ := h.binds.holds hbound
    exact (mem_usablePalette (h.proper.palette hcolor)).2
  · rintro block rest stmt loc access hat hsaves htracks hlive rfl
    rw [hresaved.saves] at hsaves
    rw [hresaved.tracks] at htracks
    have heq := h.get?_eq wf (hresaved.at_of hat) hsaves htracks (hresaved.live hlive)
    rw [hplace, hplace, heq]
  · intro block rest stmt loc access hat hsaves htracks hlive hne heq
    rw [hresaved.saves] at hsaves
    rw [hresaved.tracks] at htracks
    rw [hplace, hplace] at heq
    cases hbound : bindings.get? access with
    | some register =>
        have hother := h.get?_ne wf (hresaved.at_of hat) hsaves htracks
          (hresaved.live hlive) hne hbound
        rw [hbound] at heq
        cases hsame : bindings.get? ⟨stmt, loc⟩ with
        | some other =>
            rw [hsame] at heq
            cases heq
            exact hother hsame
        | none =>
            rw [hsame] at heq
            cases heq
    | none =>
        rw [hbound] at heq
        cases hsame : bindings.get? ⟨stmt, loc⟩ with
        | some other =>
            rw [hsame] at heq
            cases heq
        | none =>
            rw [hsame] at heq
            injection heq with hloc
            exact hne hloc.symm
  · intro block rest stmt saved access register hat hcalls htracks hlive hsaves hbound hcaller
    obtain ⟨command, call, hcommand, hcall, rfl⟩ := hresaved.of_callsSaving hcalls
    rw [hresaved.saves] at hsaves
    rw [hresaved.tracks] at htracks
    rw [hbindings] at hbound
    obtain ⟨survivors, hsurvivors, hmem⟩ := h.survives wf (hresaved.at_of hat) hcommand hcall
      htracks (hresaved.live hlive) hsaves hbound hcaller
    rw [savedAtCalls_eq body graph coloring hsurvivors]
    exact hmem

end Allocated

/-- **ALLOCATION SUCCEEDS** for every well-formed body and every palette: the body
    is rewritten as it finds out. -/
theorem allocateRegisters_eq {body : Body} (wf : WellFormed body) (palette : List Register) :
    ∃ summary flow liveness webs graph coloring bindings,
      allocateRegisters palette body = .ok (summary, rewritten body graph coloring bindings) ∧
      Allocated body palette flow liveness webs graph coloring bindings := by
  obtain ⟨flow, hflow, hof⟩ := wf.flowGraph_ok
  obtain ⟨liveness, hliveness, hlives⟩ := Liveness.compute_ok wf hof
  obtain ⟨webs, hwebs, hcomputed⟩ := Webs.compute_ok wf hlives
  obtain ⟨graph, hgraph, hbounded, hcovers⟩ :=
    InterferenceGraph.compute_ok wf hlives hcomputed.indexed
  obtain ⟨coloring, hcoloring, hproper, hlt⟩ := Coloring.compute_ok hbounded (usablePalette palette)
  -- each step is known to succeed, so the bindings are followed from the empty ones on
  have hnone : Binds webs [] {} := by
    intro access register
    constructor
    · intro hbound
      cases hbound
    · rintro ⟨key, hmem, -⟩
      cases hmem
  obtain ⟨bindings, hbindings, hbinds⟩ := bindWebs_ok
    (fun ha hb => hcomputed.holds_unique wf ha hb) (fun {key a b} ha hb => by
      rw [List.nil_append, Std.ExtTreeMap.mem_toList_iff_getElem?_eq_some] at ha hb
      exact Option.some.inj (ha.symm.trans hb))
    (fun pair hpair => hlt pair.1 (Maps.mem_of_getElem?
      (Std.ExtTreeMap.mem_toList_iff_getElem?_eq_some.mp hpair))) hnone
  rw [List.nil_append] at hbinds
  have hpreserves : bindings.Preserves (usablePalette palette) := by
    refine Checked.foldlM_invariant (Bindings.Preserves (usablePalette palette)) hbindings
      Bindings.Preserves.start ?_
    intro before pair after hpair hbefore hstep
    obtain ⟨web, -, hweb⟩ := Checked.bind_eq_ok hstep
    rw [← Checked.pure_eq_ok hweb]
    exact hbefore.bindWeb web
      (hproper.palette (Std.ExtTreeMap.mem_toList_iff_getElem?_eq_some.mp hpair))
  refine ⟨⟨webs.webs.size, coloring.colors.size, coloring.spilled.size⟩, flow, liveness, webs,
    graph, coloring, bindings, ?_, hlives, hcomputed, hcovers, hproper, hbinds, hpreserves⟩
  have hof : Liveness.ofBody body = .ok liveness := by
    rw [Liveness.ofBody, hflow]
    exact hliveness
  rw [allocateRegisters, hof]
  simp only [bind, Except.bind, hwebs, hgraph, hcoloring]
  show (coloring.colors.toList.foldlM (fun (bindings : Bindings) pair => do
    return bindings.bindWeb (← webs.get pair.1) pair.2) {} >>= fun bindings =>
      pure (AllocationSummary.mk _ _ _, rewritten body graph coloring bindings)) = _
  rw [hbindings]
  rfl

/-- Allocation keeps the values of the body. -/
theorem allocateRegisters_ok {body : Body} (wf : WellFormed body) (palette : List Register) :
    ∃ summary after saved, allocateRegisters palette body = .ok (summary, after) ∧
      body.Resaved saved after ∧ after.KeepsValues ∧
      ∀ access register, after.bindings.get? access = some register → register ∈ palette := by
  obtain ⟨summary, flow, liveness, webs, graph, coloring, bindings, hok, h⟩ :=
    allocateRegisters_eq wf palette
  refine ⟨summary, rewritten body graph coloring bindings, savedAtCalls body graph coloring, hok,
    rewritten_resaved body graph coloring bindings, h.keepsValues wf, ?_⟩
  intro access register hbound
  rw [bindings_rewritten] at hbound
  obtain ⟨key, hcolor, -⟩ := h.binds.holds hbound
  exact (mem_usablePalette (h.proper.palette hcolor)).1

/-- **ALLOCATION LOSES NO VALUE**.  Between a save into a variable or temporary
    and a read that it reaches, the value stays in one place: both accesses have
    the same place, no statement on the way saves there, and if the place is a
    register that callees may change, every call on the way preserves it. -/
theorem allocateRegisters_keeps_values {body : Body} (wf : WellFormed body)
    (palette : List Register) : ∃ summary after saved,
      allocateRegisters palette body = .ok (summary, after) ∧ body.Resaved saved after ∧
      (∀ access register, after.bindings.get? access = some register →
        register ∈ palette ∧ register.isAllocatable = true) ∧
      ∀ {block before rest save passed last access},
        after.stmtsOf block = before ++ save :: rest → after.Saves save access.loc →
        after.tracks access.loc = true → after.Way ⟨block, rest⟩ passed last →
        (∀ stmt ∈ passed, ¬ after.Saves stmt access.loc) → after.ReadsBy access last →
        after.storage ⟨save, access.loc⟩ = after.storage access ∧
        (∀ stmt ∈ passed, ∀ loc, after.Saves stmt loc →
          after.storage ⟨stmt, loc⟩ ≠ after.storage access) ∧
        ∀ register, after.storage access = .register register → register.isCallerSaved = true →
          ∀ stmt ∈ passed, ∀ registers, after.CallsSaving stmt registers →
            register ∈ registers := by
  obtain ⟨summary, after, saved, hok, hresaved, hkeeps, hpalette⟩ := allocateRegisters_ok wf palette
  refine ⟨summary, after, saved, hok, hresaved,
    fun access register hbound => ⟨hpalette access register hbound, hkeeps.allocatable hbound⟩, ?_⟩
  intro block before rest save passed last access hsplit hsaves htracks hway hspared hreads
  have wfAfter := hresaved.wellFormed wf
  have hat := wfAfter.at_of_split hsplit
  have hsave : ∃ value, after.command? save = some (.save value access.loc) := hsaves
  obtain ⟨value, hcommand⟩ := hsave
  -- liveness puts each statement on the way between the save and the read
  have hlive := hway.live wfAfter (hat.next hcommand rfl) hspared hreads
  refine ⟨?_, fun stmt hstmt loc hstmtSaves => ?_, ?_⟩
  · exact hkeeps.same hat hsaves htracks ⟨last, hway.spares hspared, hreads⟩ rfl
  · obtain ⟨block', rest', hat', hlive'⟩ := hlive stmt hstmt
    have hne : access.loc ≠ loc := fun heq => hspared stmt hstmt (heq ▸ hstmtSaves)
    obtain ⟨value', hcommand'⟩ := hstmtSaves
    exact hkeeps.apart hat' ⟨value', hcommand'⟩ htracks (hlive' _ hcommand' rfl) hne
  · intro register hplace hcaller stmt hstmt registers hcalls
    obtain ⟨block', rest', hat', hlive'⟩ := hlive stmt hstmt
    have hbound : after.bindings.get? access = some register := by
      rw [Body.storage] at hplace
      split at hplace
      · next other hother => cases hplace; exact hother
      · cases hplace
    have hmade := hcalls
    obtain ⟨command', call, -, -, -, hcommand', hcall, -⟩ := hmade
    have hends : command'.endsBlock = false := by
      cases command' with
      -- only a call preserves registers, and a call lets control through
      | save | call => rfl
      | use | label | jump | branch | ret | exit => cases hcall
    exact hkeeps.preserved hat' hcalls htracks (hlive' _ hcommand' hends)
      (hspared stmt hstmt) hbound hcaller

/-- A body that calls a method with a variable in an endless loop. -/
def calledInLoop : Body where
  name := ⟨0⟩
  records := #[.load ⟨0⟩, .save ⟨0⟩ ⟨1⟩, .label ⟨0⟩, .call ⟨1⟩ [⟨1⟩] false [], .jump ⟨0⟩]
  locations := #[.constant 5, .localVar ⟨2⟩]
  labels := #[some ⟨1⟩]
  blocks := #[⟨none, [⟨1⟩]⟩, ⟨some ⟨0⟩, [⟨2⟩, ⟨3⟩, ⟨4⟩]⟩]

/-- The variable stays in a register that the call preserves, once around the loop. -/
theorem calledInLoop_keeps_values :
    (allocateRegisters [.rax, .rcx, .rcx] calledInLoop).toOption.map (fun result =>
      (result.2.bindings.toList, result.2.records[3]?)) =
        some ([(⟨⟨1⟩, ⟨1⟩⟩, .rcx), (⟨⟨3⟩, ⟨1⟩⟩, .rcx)],
          some (.call ⟨1⟩ [⟨1⟩] false [.rcx])) ∧
    ∃ summary after saved,
      allocateRegisters [.rax, .rcx, .rcx] calledInLoop = .ok (summary, after) ∧
      calledInLoop.Resaved saved after ∧
      after.storage ⟨⟨1⟩, ⟨1⟩⟩ = after.storage ⟨⟨3⟩, ⟨1⟩⟩ ∧
      ∀ register, after.storage ⟨⟨3⟩, ⟨1⟩⟩ = .register register → register.isCallerSaved = true →
        ∀ registers, after.CallsSaving ⟨3⟩ registers → register ∈ registers := by
  refine ⟨by decide +kernel, ?_⟩
  have wf : WellFormed calledInLoop := by decide +kernel
  obtain ⟨summary, after, saved, hok, hresaved, -, hkeeps⟩ :=
    allocateRegisters_keeps_values wf [.rax, .rcx, .rcx]
  refine ⟨summary, after, saved, hok, hresaved, ?_⟩
  have hcommand : ∀ stmt, after.command? stmt =
      (calledInLoop.command? stmt).map (Command.withSaved saved stmt) := hresaved.command?
  have hstart : after.startOf ⟨1⟩ = ⟨⟨1⟩, [⟨2⟩, ⟨3⟩, ⟨4⟩]⟩ := hresaved.startOf ⟨1⟩
  -- the way from the save into the loop, once around it and to the call again
  have hnext : after.Leads ⟨⟨0⟩, []⟩ ⟨⟨1⟩, [⟨2⟩, ⟨3⟩, ⟨4⟩]⟩ := by
    rw [← hstart]
    refine .leave ?_
    rw [Body.next?, hresaved.blocks]
    rfl
  have hlabel : after.Leads ⟨⟨1⟩, [⟨2⟩, ⟨3⟩, ⟨4⟩]⟩ ⟨⟨1⟩, [⟨3⟩, ⟨4⟩]⟩ := .fall (hcommand ⟨2⟩) rfl
  have hcall : after.Leads ⟨⟨1⟩, [⟨3⟩, ⟨4⟩]⟩ ⟨⟨1⟩, [⟨4⟩]⟩ := .fall (hcommand ⟨3⟩) rfl
  have hjump : after.Leads ⟨⟨1⟩, [⟨4⟩]⟩ ⟨⟨1⟩, [⟨2⟩, ⟨3⟩, ⟨4⟩]⟩ := by
    rw [← hstart]
    exact .jump (hcommand ⟨4⟩) rfl (by rw [hresaved.labels]; rfl)
  have hway : after.Way ⟨⟨0⟩, []⟩ [⟨2⟩, ⟨3⟩, ⟨4⟩, ⟨2⟩] ⟨⟨1⟩, [⟨3⟩, ⟨4⟩]⟩ :=
    .leave rfl hnext (.pass rfl hlabel
      (.pass rfl hcall (.pass rfl hjump (.pass rfl hlabel (.stay _)))))
  have hsaves : after.Saves ⟨1⟩ ⟨1⟩ := ⟨_, hcommand ⟨1⟩⟩
  have hspared : ∀ stmt ∈ [(⟨2⟩ : Inst), ⟨3⟩, ⟨4⟩, ⟨2⟩], ¬ after.Saves stmt ⟨1⟩ := by
    intro stmt hstmt
    rw [hresaved.saves]
    rintro ⟨value, hvalue⟩
    simp only [List.mem_cons, List.not_mem_nil, or_false] at hstmt
    rcases hstmt with rfl | rfl | rfl | rfl <;> cases hvalue
  have hreads : after.ReadsBy ⟨⟨3⟩, ⟨1⟩⟩ ⟨⟨1⟩, [⟨3⟩, ⟨4⟩]⟩ :=
    ⟨⟨3⟩, [⟨4⟩], _, rfl, hcommand ⟨3⟩, List.mem_cons_self⟩
  have htracks : after.tracks ⟨1⟩ = true := hresaved.tracks ⟨1⟩
  have hsplit : after.stmtsOf ⟨0⟩ = [] ++ (⟨1⟩ : Inst) :: [] := hresaved.stmtsOf ⟨0⟩
  obtain ⟨hsame, -, hpreserved⟩ := hkeeps hsplit hsaves htracks hway hspared hreads
  exact ⟨hsame, fun register hplace hcaller registers hcalls =>
    hpreserved register hplace hcaller ⟨3⟩ (by decide) registers hcalls⟩

end DecafBackend
