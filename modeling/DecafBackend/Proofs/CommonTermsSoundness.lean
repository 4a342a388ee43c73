import DecafBackend.Proofs.Agreement
import DecafBackend.Proofs.CommonTermsEdits

/-! # Facts that hold in a run

    The facts and numbers of a walk are sound for the contents of the locations
    of the changed body, where a temporary stands for its representative.  A
    statement writes its destination and the representative of its temporary.
    Other temporaries with that representative are for the same term, so what
    they hold stays right: either their term still has its value, or it is not
    available any more.

    * `root_low`, `related_of_root` — representatives
    * `Holding`, `Keeps`, `Sound` — what is known of the contents
    * `Effect` — what a statement does to the contents
    * `Called.valid`, `saved_valid` — numbers over a call and over a save
    * `Sound.step` — a walk stays sound over a statement -/

namespace DecafBackend.CommonTerms

open Available (Unified)

variable {original body : Body} {temps : Std.ExtTreeMap Inst Loc} {sets : DisjointSets .loc}

/-! ## Representatives -/

/-- Only temporaries have other representatives than themselves. -/
theorem root_low (hunified : Unified (Related original body temps) sets) {loc : Loc}
    (h : loc.index < original.locations.size) : sets.root loc = loc := by
  by_cases hroot : sets.root loc = loc
  · exact hroot
  · exact absurd h (Nat.not_lt.mpr (hunified loc hroot).left)

/-- A temporary is unified with temporaries only. -/
theorem root_high (hunified : Unified (Related original body temps) sets) {loc : Loc}
    (h : original.locations.size ≤ loc.index) :
    original.locations.size ≤ (sets.root loc).index := by
  by_cases hroot : sets.root loc = loc
  · rw [hroot]
    exact h
  · exact (hunified loc hroot).right

/-- Temporaries with one representative are for one term, and exposed. -/
theorem related_of_root (hsited : Sited original body temps)
    (hunified : Unified (Related original body temps) sets) {x y : Loc} (hne : x ≠ y)
    (h : sets.root x = sets.root y) : Related original body temps x y := by
  by_cases hx : sets.root x = x
  · by_cases hy : sets.root y = y
    · exact absurd (hx.symm.trans (h.trans hy)) hne
    · have hrelated := hunified y hy
      rw [← h, hx] at hrelated
      exact hrelated.symm
  · have hfirst := hunified x hx
    rw [h] at hfirst
    by_cases hy : sets.root y = y
    · rw [hy] at hfirst
      exact hfirst
    · exact hfirst.trans hsited (hunified y hy).symm

/-! ## Contents -/

section

variable (setting : Setting) (original body : Body) (temps : Std.ExtTreeMap Inst Loc)
  (sets : DisjointSets .loc)

/-- Every available term has a value, which its holders hold. -/
def Holding (store : Store) (facts : Available) : Prop :=
  ∀ {term : Term}, facts.Has term →
    ∃ word, term.eval setting.arithmetic (body.read setting store) = some word ∧
      ∀ {loc : Loc}, facts.Holds term loc →
        body.read setting store (sets.root loc) = some word

/-- A temporary holds a word; if it shares its representative with others, then
    that is still the value of its term. -/
def Keeps (store : Store) (temp : Loc) (word : Word) : Prop :=
  body.read setting store (sets.root temp) = some word ∧
    ∀ {other : Loc} {term : Term}, other ≠ temp → sets.root other = sets.root temp →
      KeyOf body temps temp term →
        term.eval setting.arithmetic (body.read setting store) = some word

/-- A walk whose facts and numbers are right. -/
structure Sound (store : Store) (walk : Walk) : Prop where
  facts : Holding setting body sets store walk.facts
  table : ∃ value, walk.table.Valid setting.arithmetic
    (fun loc => loc.index < original.locations.size) (body.read setting store)
    (Keeps setting body temps sets store) value

/-- What a statement does to the contents of the locations. -/
structure Effect (stmt : Inst) (command : Command) (store store' : Store) : Prop where
  low : ∀ {loc : Loc}, loc.index < original.locations.size → command.dest? ≠ some loc →
    ((command.callInst? stmt).isSome = true → body.isGlobal loc = .ok false) →
      body.read setting store' loc = body.read setting store loc
  high : ∀ {loc : Loc}, original.locations.size ≤ loc.index →
    (∀ {value dest term temp}, command = .save value dest → value.term? = some term →
      dest ∉ term.operands → temps[stmt]? = some temp → sets.root temp ≠ loc) →
      body.read setting store' loc = body.read setting store loc
  term : ∀ {value dest term}, command = .save value dest → value.term? = some term →
    ∃ word, term.eval setting.arithmetic (body.read setting store) = some word ∧
      body.read setting store' dest = some word ∧
      ∀ {temp}, dest ∉ term.operands → temps[stmt]? = some temp →
        body.read setting store' (sets.root temp) = some word

end

variable {setting : Setting}

/-- A term that a statement spares keeps its value. -/
theorem Effect.eval_eq {stmt : Inst} {command : Command} {store store' : Store} {term : Term}
    (h : Effect setting original body temps sets stmt command store store')
    (hspares : Spares body stmt command term)
    (hlow : ∀ loc ∈ term.operands, loc.index < original.locations.size) :
    term.eval setting.arithmetic (body.read setting store') =
      term.eval setting.arithmetic (body.read setting store) := by
  refine Term.eval_congr fun loc hloc => h.low (hlow loc hloc) ?_ fun hcall =>
    hspares.call hcall loc hloc
  intro hdest
  exact hspares.dest loc hdest hloc

section

variable (hsited : Sited original body temps)
  (hunified : Unified (Related original body temps) sets)
include hsited hunified

/-- A representative that a statement writes is that of temporaries for the
    term of the statement. -/
theorem Effect.read_root {stmt : Inst} {command : Command} {store store' : Store} {loc : Loc}
    {word : Word} {term : Term}
    (h : Effect setting original body temps sets stmt command store store')
    (hcommand : body.command? stmt = some command)
    (hhigh : original.locations.size ≤ loc.index) (hkey : KeyOf body temps loc term)
    (hread : body.read setting store (sets.root loc) = some word)
    (hvalue : (∃ temp, temps[stmt]? = some temp ∧ sets.root temp = sets.root loc) →
      term.eval setting.arithmetic (body.read setting store) = some word) :
    body.read setting store' (sets.root loc) = some word := by
  -- the statement may write the representative itself, by way of a temporary of its own
  by_cases hwritten : ∃ value dest written temp, command = .save value dest ∧
      value.term? = some written ∧ dest ∉ written.operands ∧ temps[stmt]? = some temp ∧
        sets.root temp = sets.root loc
  · obtain ⟨value, dest, written, temp, rfl, hterm, hnot, htemp, hroot⟩ := hwritten
    have hkeyTemp : KeyOf body temps temp written := ⟨stmt, value, dest, htemp, hcommand, hterm⟩
    have hsame : written = term := by
      by_cases heq : temp = loc
      · subst heq
        exact hkeyTemp.unique hsited hkey
      · obtain ⟨-, -, common, hfirst, hsecond, -⟩ := related_of_root hsited hunified heq hroot
        exact (hkeyTemp.unique hsited hfirst).trans (hsecond.unique hsited hkey)
    subst hsame
    obtain ⟨word', heval, -, hcopied⟩ := h.term rfl hterm
    rw [hvalue ⟨temp, htemp, hroot⟩] at heval
    cases heval
    rw [← hroot]
    exact hcopied hnot htemp
  · rw [← hread]
    refine h.high (root_high hunified hhigh) ?_
    intro value dest written temp hsave hterm hnot htemp hroot
    exact hwritten ⟨value, dest, written, temp, hsave, hterm, hnot, htemp, hroot⟩

/-- **FACTS STAY RIGHT** over a statement. -/
theorem Holding.step {passed : List Inst} {stmt : Inst} {command : Command}
    {store store' : Store} {facts left : Available}
    (h : Holding setting body sets store facts)
    (hflowing : Flowing original body temps passed facts)
    (hstepped : Stepped body temps stmt command facts left)
    (hcommand : body.command? stmt = some command) (hlow : Low original stmt command)
    (heffect : Effect setting original body temps sets stmt command store store') :
    Holding setting body sets store' left := by
  intro term hterm
  obtain ⟨hspares, horigin⟩ := hstepped.has hterm
  -- a term that is left is not touched by the statement and has its old value
  have hoperands := (hflowing.step hcommand hlow hstepped).operands hterm
  have hsame := heffect.eval_eq hspares hoperands
  obtain ⟨word, heval⟩ : ∃ word,
      term.eval setting.arithmetic (body.read setting store) = some word := by
    rcases horigin with hold | ⟨value, dest, hsave, hvalue⟩
    · obtain ⟨word, heval, -⟩ := h hold
      exact ⟨word, heval⟩
    · obtain ⟨word, heval, -⟩ := heffect.term hsave hvalue
      exact ⟨word, heval⟩
  refine ⟨word, hsame.trans heval, ?_⟩
  intro loc hloc
  -- a holder that is left is an old one, or one the save adds
  rcases hstepped.holds hloc with ⟨hold, hdest, hcall⟩ | ⟨value, dest, hsave, hvalue, hplace⟩
  · obtain ⟨word', heval', hholders⟩ := h hold.has
    rw [heval] at heval'
    cases heval'
    by_cases hlocLow : loc.index < original.locations.size
    · have hread := hholders hold
      rw [root_low hunified hlocLow] at hread ⊢
      rw [heffect.low hlocLow hdest hcall, hread]
    · have hhigh := Nat.not_lt.mp hlocLow
      exact heffect.read_root hsited hunified hcommand hhigh (hflowing.key hold hhigh)
        (hholders hold) fun _ => heval
  · obtain ⟨word', heval', hdest, hcopied⟩ := heffect.term hsave hvalue
    rw [heval] at heval'
    cases heval'
    have hdestEq : command.dest? = some dest := by rw [hsave]; rfl
    rcases hplace with rfl | htemp
    · rw [root_low hunified (hlow.dest loc hdestEq)]
      exact hdest
    · exact hcopied (hspares.dest dest hdestEq) htemp

end

/-- A statement behind a site, in a list without repetition. -/
theorem mem_back {stmts front back passed rest : List Inst} {site stmt : Inst}
    (hnodup : stmts.Nodup) (hsplit : stmts = front ++ site :: back)
    (hsplit' : stmts = passed ++ stmt :: rest) (hsite : site ∈ passed) : stmt ∈ back := by
  -- by induction on what is passed: where the site is first, the rest stands behind it
  induction passed generalizing stmts front with
  | nil => cases hsite
  | cons first passed ih =>
      cases front with
      | nil =>
          rw [hsplit'] at hsplit
          cases hsplit
          exact List.mem_append_right _ List.mem_cons_self
      | cons other front =>
          rw [hsplit'] at hsplit
          injection hsplit with hfirst hrest
          subst hfirst
          have hnodup' := hsplit' ▸ hnodup
          obtain ⟨hnot, hnodup'⟩ := List.nodup_cons.mp hnodup'
          refine ih hnodup' hrest rfl ?_
          rcases List.mem_cons.mp hsite with rfl | hsite
          · refine absurd ?_ hnot
            rw [hrest]
            exact List.mem_append_right _ List.mem_cons_self
          · exact hsite

/-! ## Numbers -/

section

variable (hsited : Sited original body temps) (wf : WellFormed original)
  (hunified : Unified (Related original body temps) sets)
include hsited wf

/-- The operands of the term that a temporary is for are no temporaries. -/
theorem KeyOf.operands_low {temp : Loc} {term : Term} (h : KeyOf body temps temp term)
    (hstmt : ∀ {site : Inst}, temps[site]? = some temp → site ∈ body.stmts) :
    ∀ loc ∈ term.operands, loc.index < original.locations.size := by
  obtain ⟨site, value, dest, htemp, hcommand, hterm⟩ := h
  intro loc hloc
  obtain ⟨access, haccess, rfl⟩ := Value.mem_operands_term hterm hloc
  exact (hsited.low wf (hstmt htemp) hcommand).reads access haccess

include hunified

/-- A temporary whose save is behind keeps what it holds. -/
theorem Keeps.step {block : Block} {passed rest : List Inst} {stmt site : Inst}
    {command : Command} {store store' : Store} {temp : Loc} {word : Word}
    (h : Keeps setting body temps sets store temp word)
    (hsplit : body.stmtsOf block = passed ++ stmt :: rest)
    (hcommand : body.command? stmt = some command) (hsite : site ∈ passed)
    (htemp : temps[site]? = some temp)
    (heffect : Effect setting original body temps sets stmt command store store') :
    Keeps setting body temps sets store' temp word := by
  have wf' := hsited.wellFormed wf
  have hnodup := wf'.stmtsOf_nodup block
  have hin : site ∈ body.stmtsOf block := by
    rw [hsplit]
    exact List.mem_append_left _ hsite
  -- the site is another statement, as statements stand once in a block
  have hne : stmt ≠ site := by
    rintro rfl
    rw [hsplit] at hnodup
    exact (List.nodup_append.mp hnodup).2.2 stmt hsite stmt List.mem_cons_self rfl
  obtain ⟨value, dest, term, hsave, hterm⟩ := hsited.site htemp
  have hkey : KeyOf body temps temp term :=
    ⟨site, value, dest, htemp, (hsited.command?_eq site).trans hsave, hterm⟩
  constructor
  · refine heffect.read_root hsited hunified hcommand (hsited.temp htemp).1 hkey h.1 ?_
    rintro ⟨other, hother, hroot⟩
    refine h.2 ?_ hroot hkey
    rintro rfl
    exact hne (hsited.injective hother htemp)
  · intro other term' hother hroot hkey'
    obtain ⟨-, -, common, hfirst, -, ⟨block', front, site', back, hblock, hsite', hback⟩, -⟩ :=
      related_of_root hsited hunified (Ne.symm hother) hroot.symm
    cases hfirst.unique hsited hkey'
    cases hsited.injective hsite' htemp
    -- the temporary is exposed, so its term is not stale here
    have hsame : block' = block := by
      refine wf'.block_unique ?_ hin
      rw [hblock]
      exact List.mem_append_right _ List.mem_cons_self
    subst hsame
    have hspares := hback stmt (mem_back hnodup hblock hsplit hsite) command hcommand
    have hlow : ∀ loc ∈ term'.operands, loc.index < original.locations.size := by
      refine hkey'.operands_low hsited wf fun hsite' => ?_
      rw [hsited.injective hsite' htemp]
      exact Body.mem_stmts_of_stmtsOf hin
    rw [heffect.eval_eq hspares hlow]
    exact h.2 hother hroot hkey'

/-- What the temporaries of a walk hold, they hold behind the next statement. -/
theorem Tracked.keeps {block : Block} {passed rest : List Inst} {stmt : Inst} {command : Command}
    {store store' : Store} {walk : Walk} (htracked : Tracked original body temps passed walk)
    (hsplit : body.stmtsOf block = passed ++ stmt :: rest)
    (hcommand : body.command? stmt = some command)
    (heffect : Effect setting original body temps sets stmt command store store')
    {number : ValueNumber} {temp : Loc} {word : Word}
    (hnumber : walk.table.temps[number]? = some temp)
    (hword : Keeps setting body temps sets store temp word) :
    Keeps setting body temps sets store' temp word := by
  obtain ⟨site, hsite, htemp⟩ := htracked.temps hnumber
  exact hword.step hsited wf hunified hsplit hcommand hsite htemp heffect

/-- What a call leaves of the numbering is right of the locations that are not written. -/
theorem Called.valid {block : Block} {passed rest : List Inst} {stmt : Inst} {command : Command}
    {store store' : Store} {walk called : Walk} {value : ValueNumber → Option Word}
    (h : Called body stmt command walk called)
    (hvalid : walk.table.Valid setting.arithmetic
      (fun loc => loc.index < original.locations.size) (body.read setting store)
      (Keeps setting body temps sets store) value)
    (htracked : Tracked original body temps passed walk)
    (hsplit : body.stmtsOf block = passed ++ stmt :: rest)
    (hcommand : body.command? stmt = some command)
    (heffect : Effect setting original body temps sets stmt command store store') :
    called.table.Valid setting.arithmetic
      (fun loc => loc.index < original.locations.size ∧ command.dest? ≠ some loc)
      (body.read setting store') (Keeps setting body temps sets store') value := by
  have hkeeps : ∀ {number temp word}, walk.table.temps[number]? = some temp →
      Keeps setting body temps sets store temp word →
        Keeps setting body temps sets store' temp word :=
    fun hnumber hword => htracked.keeps hsited wf hunified hsplit hcommand heffect hnumber hword
  cases h with
  -- without a call nothing changes but the destination
  | silent hnone =>
      refine ⟨?_, hvalid.terms, ?_⟩
      · intro loc number hloc
        obtain ⟨hlt, hread⟩ := hvalid.locs hloc
        refine ⟨hlt, fun hlow => ?_⟩
        rw [heffect.low hlow.1 hlow.2 (by rw [hnone]; exact nofun)]
        exact hread hlow.1
      · intro number temp hnumber
        obtain ⟨hlt, word, hword, hold⟩ := hvalid.temps hnumber
        exact ⟨hlt, word, hword, hkeeps hnumber hold⟩
  | outward hcall hindexed hfacts hbounded hspared =>
      refine (hvalid.weaken fun _ hlow => hlow.1).spared hspared ?_ hkeeps
      intro loc hlow hglobal
      exact heffect.low hlow.1 hlow.2 fun _ => hglobal

/-- The numbers behind a save of a term: the destination has the number of the term, and
    so has its temporary, unless the save changes the term. -/
theorem saved_valid {block : Block} {passed rest : List Inst} {stmt : Inst} {value' : Value}
    {dest : Loc} {term : Term} {source : Option Loc} {store store' : Store} {walk : Walk}
    {value : ValueNumber → Option Word}
    (hvalid : walk.table.Valid setting.arithmetic
      (fun loc => loc.index < original.locations.size) (body.read setting store)
      (Keeps setting body temps sets store) value)
    (htracked : Tracked original body temps passed walk)
    (hsplit : body.stmtsOf block = passed ++ stmt :: rest)
    (hcommand : body.command? stmt = some (.save value' dest)) (hterm : value'.term? = some term)
    (hlow : Low original stmt (.save value' dest))
    (heffect : Effect setting original body temps sets stmt (.save value' dest) store store') :
    ∃ value, (saved temps walk stmt term dest source).table.Valid setting.arithmetic
      (fun loc => loc.index < original.locations.size) (body.read setting store')
      (Keeps setting body temps sets store') value := by
  have hsilent : ∀ {P : Prop}, ((Command.save value' dest).callInst? stmt).isSome = true → P := by
    intro P hsome
    rw [callInst?_of_term hterm] at hsome
    cases hsome
  have hoperands : ∀ loc ∈ term.operands, loc.index < original.locations.size := by
    intro loc hloc
    obtain ⟨access, haccess, rfl⟩ := Value.mem_operands_term hterm hloc
    exact hlow.reads access haccess
  obtain ⟨value₁, hnumbered⟩ := NumberTable.ofTerm_spec hvalid hoperands
  obtain ⟨word, heval, hdestRead, hcopied⟩ := heffect.term rfl hterm
  have hword : value₁ (walk.table.ofTerm term).1 = some word := hnumbered.word.trans heval
  -- the table behind the write of the destination
  have hwritten : ((walk.table.ofTerm term).2.define dest (walk.table.ofTerm term).1).Valid
      setting.arithmetic (fun loc => loc.index < original.locations.size)
      (body.read setting store') (Keeps setting body temps sets store') value₁ := by
    refine hnumbered.valid.define hnumbered.number ?_ ?_ ?_
    · exact fun _ => hdestRead.trans hword.symm
    · exact fun loc hloc hne => heffect.low hloc (fun heq => hne (Option.some.inj heq).symm) hsilent
    · intro number temp word' hnumber _ hold
      rw [NumberTable.ofTerm_temps] at hnumber
      exact htracked.keeps hsited wf hunified hsplit hcommand heffect hnumber hold
  refine ⟨value₁, ?_⟩
  rw [saved_table]
  -- a save that changes its own term leaves nothing in a temporary
  by_cases hmentions : term.mentions dest = true
  · rw [if_pos hmentions]
    exact hwritten
  · rw [if_neg hmentions]
    have hnot : dest ∉ term.operands := fun hmem => hmentions (mentions_iff.mpr hmem)
    cases htemp : temps[stmt]? with
    | none => exact hwritten
    | some temp =>
        have hhigh := (hsited.temp htemp).1
        have hshadow : (((walk.table.ofTerm term).2.define dest
            (walk.table.ofTerm term).1).define temp (walk.table.ofTerm term).1).Valid
            setting.arithmetic (fun loc => loc.index < original.locations.size)
            (body.read setting store') (Keeps setting body temps sets store') value₁ :=
          hwritten.define hnumbered.number (fun hlt => absurd hlt (Nat.not_lt.mpr hhigh))
            (fun _ _ _ => rfl) fun _ _ hold => hold
        dsimp only
        split
        · exact hshadow
        · refine hshadow.remember hnumbered.number hword ⟨hcopied hnot htemp, ?_⟩
          intro other term' _ _ hkey
          obtain rfl : term' = term :=
            hkey.unique hsited ⟨stmt, value', dest, htemp, hcommand, hterm⟩
          have hspares : Spares body stmt (.save value' dest) term' := by
            refine ⟨fun loc hloc => ?_, hsilent⟩
            cases hloc
            exact hnot
          rw [heffect.eval_eq hspares hoperands]
          exact heval

/-- **WALKS STAY SOUND** over a statement. -/
theorem Sound.step {block : Block} {passed rest : List Inst} {stmt : Inst} {command : Command}
    {store store' : Store} {walk next : Walk}
    (h : Sound setting original body temps sets store walk)
    (htracked : Tracked original body temps passed walk)
    (hsplit : body.stmtsOf block = passed ++ stmt :: rest)
    (hcommand : body.command? stmt = some command)
    (hmove : Move body temps stmt command walk next)
    (hstepped : Stepped body temps stmt command walk.facts next.facts)
    (heffect : Effect setting original body temps sets stmt command store store') :
    Sound setting original body temps sets store' next := by
  have hin : stmt ∈ body.stmtsOf block := by
    rw [hsplit]
    exact List.mem_append_right _ List.mem_cons_self
  have hlow := hsited.low wf (Body.mem_stmts_of_stmtsOf hin) hcommand
  refine ⟨Holding.step hsited hunified h.facts htracked.facts hstepped hcommand hlow heffect, ?_⟩
  obtain ⟨value, hvalid⟩ := h.table
  cases hmove with
  | idle hdest hcalled =>
      refine ⟨value, (hcalled.valid hsited wf hunified hvalid htracked hsplit hcommand
        heffect).weaken fun loc hlt => ⟨hlt, ?_⟩⟩
      rw [hdest]
      exact (Option.some_ne_none loc).symm
  | overwrite hsave hterm hcalled =>
      subst hsave
      exact ((hcalled.valid hsited wf hunified hvalid htracked hsplit hcommand heffect).weaken
        fun loc hwritten =>
          ⟨hwritten.1, fun heq => hwritten.2 (Option.some.inj heq).symm⟩).overwrite
  | term hsave hterm hsource =>
      subst hsave
      exact saved_valid hsited wf hunified hvalid htracked hsplit hcommand hterm hlow heffect

end

end DecafBackend.CommonTerms
