import DecafBackend.Proofs.Allocation
import DecafBackend.Proofs.CommonTermsConvergence
import DecafBackend.Proofs.LivenessExactness

/-! # Available terms are found exactly

    A term is available at the start of a block if, on every way from the entry
    to it, some save computes the term and nothing behind the save disturbs its
    operands.  The analysis finds these terms, and the locations that hold them
    on every way, and it finds nothing else.

    * `Body.Trail`, `Body.way_iff_trail` — ways of control, block by block
    * `On`, `on_append` — what a way leaves of a fact
    * `step_iff`, `walk_iff` — what statements leave of the facts in front of them
    * `on_of_input`, `input_of_on` — facts at the start of a block
    * `solve_exact` — terms and their holders are found exactly -/

namespace DecafBackend

/-! ## Ways, block by block -/

namespace Body

/-- Control goes from the entry through whole blocks to the start of a block,
    and goes over some statements on the way. -/
inductive Trail (body : Body) (graph : FlowGraph) : Block → List Inst → Prop
  /-- It starts at the entry. -/
  | entry {block : Block} (h : graph.entry? = some block) : Trail body graph block []
  /-- It goes through a block. -/
  | next {block target : Block} {passed : List Inst} (h : Trail body graph block passed)
      (hnext : target ∈ graph.successors block) :
      Trail body graph target (passed ++ body.stmtsOf block)

variable {body : Body} {graph : FlowGraph}

/-- A block that the entry reaches is at the end of a trail. -/
theorem Trail.of_reached {block : Block} (h : graph.Reached block) :
    ∃ passed, body.Trail graph block passed := by
  induction h with
  | entry h => exact ⟨[], .entry h⟩
  | next _ hnext ih =>
      obtain ⟨passed, htrail⟩ := ih
      exact ⟨_, htrail.next hnext⟩

/-- Ways are put one behind the other. -/
theorem Way.append {first second third : Point} {passed passed' : List Inst}
    (h : body.Way first passed second) (h' : body.Way second passed' third) :
    body.Way first (passed ++ passed') third := by
  induction h with
  | stay point => exact h'
  | pass hrest hleads _ ih => exact .pass hrest hleads (ih h')
  | leave hrest hleads _ ih => exact .leave hrest hleads (ih h')

/-- Control goes over statements that let it through. -/
theorem Way.over (block : Block) {stmts : List Inst} (rest : List Inst)
    (h : ∀ stmt ∈ stmts, ∃ command, body.command? stmt = some command ∧
      command.isTerminator = false) : body.Way ⟨block, stmts ++ rest⟩ stmts ⟨block, rest⟩ := by
  induction stmts with
  | nil => exact .stay _
  | cons stmt stmts ih =>
      obtain ⟨command, hcommand, hfalls⟩ := h stmt List.mem_cons_self
      exact .pass rfl (.fall hcommand hfalls) (ih fun other hother =>
        h other (List.mem_cons_of_mem _ hother))

section

variable (wf : WellFormed body) (hflow : graph.Of body)
include wf

/-- Only the last statement of a block keeps control from the next one. -/
theorem falls_of_front {block : Block} {front : List Inst} {last : Inst}
    (hsplit : body.stmtsOf block = front ++ [last]) :
    ∀ stmt ∈ front, ∃ command, body.command? stmt = some command ∧
      command.isTerminator = false := by
  intro stmt hstmt
  have hmem : stmt ∈ body.stmtsOf block := hsplit ▸ List.mem_append_left _ hstmt
  obtain ⟨command, hcommand, -⟩ := wf.command_of_mem hmem
  refine ⟨command, hcommand, ?_⟩
  obtain ⟨before, after, rfl⟩ := List.append_of_mem hstmt
  have hinner : body.stmtsOf block = before ++ stmt :: (after ++ [last]) := by
    rw [hsplit, List.append_assoc]
    rfl
  have hends : command.endsBlock = false := by
    rw [← Bool.not_eq_true]
    intro hends
    have hnil := wf.enders hinner hcommand hends
    exact absurd hnil (by simp)
  cases command with
  | jump | branch | ret | exit => cases hends
  | save | call | use | label => rfl

include hflow

/-- An edge is a way through a whole block. -/
theorem way_of_successor {block target : Block} (hlt : block.index < body.blocks.size)
    (htarget : target ∈ graph.successors block) :
    body.Way (body.startOf block) (body.stmtsOf block) (body.startOf target) := by
  -- either the last statement jumps there, or control falls through the whole block
  rcases wf.cases_of_successor (hflow.successors hlt) htarget with
    ⟨front, last, command, label, hsplit, hcommand, hlabel, hplaced⟩ | ⟨hnext, hthrough⟩
  · rw [startOf, hsplit]
    exact (Way.over block [last] (falls_of_front wf hsplit)).append
      (.pass rfl (.jump hcommand hlabel hplaced) (.stay _))
  · have hfalls : ∀ stmt ∈ body.stmtsOf block, ∃ command,
        body.command? stmt = some command ∧ command.isTerminator = false := by
      intro stmt hstmt
      cases hlast : (body.stmtsOf block).getLast? with
      | none =>
          rw [List.getLast?_eq_none_iff.mp hlast] at hstmt
          cases hstmt
      | some last =>
          obtain ⟨front, hsplit⟩ := List.getLast?_eq_some_iff.mp hlast
          obtain ⟨command, hcommand, -⟩ := wf.command_of_mem hstmt
          rw [hsplit] at hstmt
          rcases List.mem_append.mp hstmt with hfront | hback
          · exact falls_of_front wf hsplit stmt hfront
          · cases List.mem_singleton.mp hback
            exact ⟨command, hcommand, hthrough stmt command hlast hcommand⟩
    have hway := Way.over block [] hfalls
    rw [List.append_nil] at hway
    have hall := hway.append (.leave rfl (.leave hnext) (.stay _))
    rw [List.append_nil] at hall
    exact hall

/-- Wherever control comes to, it went through whole blocks before, and then
    over the first statements of the last one. -/
theorem trail_of_way {point last : Point} {passed : List Inst} (h : body.Way point passed last)
    (hat : body.At point.block point.rest) (front before : List Inst)
    (htrail : body.Trail graph point.block front)
    (hsplit : body.stmtsOf point.block = before ++ point.rest) :
    ∃ front' before', body.Trail graph last.block front' ∧
      body.stmtsOf last.block = before' ++ last.rest ∧
      front ++ before ++ passed = front' ++ before' := by
  induction h generalizing front before with
  | stay point => exact ⟨front, before, htrail, hsplit, List.append_nil _⟩
  | @pass point next last stmt rest passed hrest hleads _ ih =>
      have hat' := wf.at_leads hat hleads
      rcases wf.leads_cases hflow hat hleads with
        ⟨hblock, other, hother⟩ | ⟨hstart, htarget, hend⟩
      -- within the block the trail stays, and one statement more is passed
      · rw [hrest] at hother
        cases hother
        rw [hrest] at hsplit
        obtain ⟨front', before', htrail', hsplit', hpassed⟩ := ih hat' front
          (before ++ [stmt]) (hblock ▸ htrail) (by rw [hblock, hsplit, List.append_assoc]; rfl)
        refine ⟨front', before', htrail', hsplit', hpassed ▸ ?_⟩
        simp only [List.append_assoc, List.cons_append, List.nil_append]
      · -- the statement is the last one of its block
        have hlast : point.rest = [stmt] := by
          rcases hend with hnil | ⟨other, _, _, hone, -⟩
          · rw [hrest] at hnil
            cases hnil
          · rw [hrest] at hone ⊢
            cases hone
            rfl
        rw [hlast] at hsplit
        obtain ⟨front', before', htrail', hsplit', hpassed⟩ := ih hat' _ []
          (htrail.next htarget) (by rw [hstart]; rfl)
        refine ⟨front', before', htrail', hsplit', hpassed ▸ ?_⟩
        rw [hsplit]
        simp only [List.append_assoc, List.cons_append, List.nil_append]
  | @leave point next last passed hrest hleads _ ih =>
      have hat' := wf.at_leads hat hleads
      rcases wf.leads_cases hflow hat hleads with
        ⟨-, other, hother⟩ | ⟨hstart, htarget, -⟩
      · rw [hrest] at hother
        -- the whole block is behind, so the trail takes the edge
        cases hother
      · rw [hrest, List.append_nil] at hsplit
        obtain ⟨front', before', htrail', hsplit', hpassed⟩ := ih hat' _ []
          (htrail.next htarget) (by rw [hstart]; rfl)
        refine ⟨front', before', htrail', hsplit', hpassed ▸ ?_⟩
        rw [hsplit, List.append_nil]

/-- A trail leads to a block of the body. -/
theorem lt_of_trail {block : Block} {passed : List Inst} (h : body.Trail graph block passed) :
    block.index < body.blocks.size := by
  induction h with
  | entry h =>
      rw [hflow.entry wf.blocks_pos] at h
      cases h
      exact wf.blocks_pos
  | next _ hnext ih => exact wf.lt_of_mem_successors (hflow.successors ih) hnext

/-- Ways from the entry to the start of a block go through whole blocks. -/
theorem way_iff_trail {block : Block} {passed : List Inst} :
    body.Way (body.startOf ⟨0⟩) passed (body.startOf block) ↔ body.Trail graph block passed := by
  have hentry := hflow.entry wf.blocks_pos
  constructor
  · intro h
    obtain ⟨front, before, htrail, hsplit, hpassed⟩ :=
      trail_of_way wf hflow h (Body.At.start wf.blocks_pos) [] [] (.entry hentry) rfl
    have hnil : before = [] := List.append_left_eq_self.mp hsplit.symm
    subst hnil
    rw [List.append_nil, List.nil_append, List.append_nil] at hpassed
    exact hpassed ▸ htrail
  · intro h
    induction h with
    | entry h =>
        rw [hentry] at h
        cases h
        exact .stay _
    | @next source target passed htrail hnext ih =>
        exact ih.append (way_of_successor wf hflow (lt_of_trail wf hflow htrail) hnext)

end

end Body

namespace CommonTerms

/-! ## Facts on a way -/

/-- A save computes a term that its destination takes no part in. -/
def Computes (body : Body) (save : Inst) (term : Term) (dest : Loc) : Prop :=
  dest ∉ term.operands ∧ ∃ value, body.command? save = some (.save value dest) ∧
    termOf body value.inst = .ok (some term)

/-- A statement writes a location, or it makes a call and the location is a
    field. -/
def Disturbs (body : Body) (stmt : Inst) (loc : Loc) : Prop :=
  body.Saves stmt loc ∨ (body.hasCall stmt = .ok true ∧ body.isGlobal loc = .ok true)

/-- The locations that a fact is about: the operands of its term, and the
    holder if it has one. -/
def places (fact : Term × Option Loc) : List Loc := fact.1.operands ++ fact.2.toList

/-- A save makes a fact: it computes the term, and the holder is its destination
    or its temporary. -/
def Makes (body : Body) (temps : Std.ExtTreeMap Inst Loc) (save : Inst)
    (fact : Term × Option Loc) : Prop :=
  ∃ dest, Computes body save fact.1 dest ∧
    ∀ holder, fact.2 = some holder → holder = dest ∨ temps[save]? = some holder

/-- Some statement on a way makes a fact, and none behind it disturbs what the
    fact is about. -/
def On (body : Body) (temps : Std.ExtTreeMap Inst Loc) (fact : Term × Option Loc)
    (passed : List Inst) : Prop :=
  ∃ before save after, passed = before ++ save :: after ∧ Makes body temps save fact ∧
    ∀ stmt ∈ after, ∀ loc ∈ places fact, ¬ Disturbs body stmt loc

section

variable {body : Body} {temps : Std.ExtTreeMap Inst Loc} {fact : Term × Option Loc}

/-- Nothing is made on a way without statements. -/
theorem not_on_nil : ¬ On body temps fact [] := by
  rintro ⟨before, save, after, hsplit, -⟩
  cases before <;> cases hsplit

/-- A fact is made on the second part of a way, or it is made on the first part
    and the second one leaves it alone. -/
theorem on_append {passed rest : List Inst} : On body temps fact (passed ++ rest) ↔
    On body temps fact rest ∨
      (On body temps fact passed ∧
        ∀ stmt ∈ rest, ∀ loc ∈ places fact, ¬ Disturbs body stmt loc) := by
  constructor
  · rintro ⟨before, save, after, hsplit, hmakes, hspares⟩
    rcases List.append_eq_append_iff.mp hsplit
      with ⟨middle, hbefore, hrest⟩ | ⟨middle, hpassed, hafter⟩
    · exact Or.inl ⟨middle, save, after, hrest, hmakes, hspares⟩
    -- the save that makes the fact is in the second part or in the first
    · cases middle with
      | nil =>
          exact Or.inl ⟨[], save, after, hafter.symm, hmakes, hspares⟩
      | cons first middle =>
          cases hafter
          refine Or.inr ⟨⟨before, save, middle, hpassed, hmakes, fun stmt hstmt => ?_⟩,
            fun stmt hstmt => ?_⟩
          · exact hspares stmt (List.mem_append_left _ hstmt)
          · exact hspares stmt (List.mem_append_right _ hstmt)
  · rintro (⟨before, save, after, rfl, hmakes, hspares⟩ |
      ⟨⟨before, save, after, rfl, hmakes, hspares⟩, hrest⟩)
    · exact ⟨passed ++ before, save, after, (List.append_assoc _ _ _).symm, hmakes, hspares⟩
    · refine ⟨before, save, after ++ rest, List.append_assoc _ _ _, hmakes, fun stmt hstmt => ?_⟩
      exact (List.mem_append.mp hstmt).elim (hspares stmt) (hrest stmt)

/-- On a way of one statement, that one makes the fact. -/
theorem on_singleton {stmt : Inst} : On body temps fact [stmt] ↔ Makes body temps stmt fact := by
  constructor
  · rintro ⟨before, save, after, hsplit, hmakes, -⟩
    cases before with
    | nil =>
        cases hsplit
        exact hmakes
    | cons first before =>
        injection hsplit with _ hnil
        cases before <;> cases hnil
  · exact fun hmakes => ⟨[], stmt, [], rfl, hmakes, fun _ h => by cases h⟩

end

/-! ## Facts behind a statement -/

section

variable {facts : Available} {size : Nat} {fact : Term × Option Loc}

/-- A write leaves the facts about other locations. -/
theorem holds_kill {loc : Loc} (h : facts.Consistent size) :
    holds fact (facts.kill loc) = true ↔ holds fact facts = true ∧ loc ∉ places fact := by
  obtain ⟨term, none | holder⟩ := fact
  · rw [holds_none, holds_none, Available.has_kill_iff h, places, Option.toList_none,
    List.append_nil]
  · rw [holds_some, holds_some, Available.holds_kill_iff h, places, Option.toList_some,
      List.mem_append, List.mem_singleton, not_or, ne_comm]

/-- The holder of a fact is one of its places. -/
theorem mem_places {loc : Loc} (h : fact.2 = some loc) : loc ∈ places fact :=
  List.mem_append_right _ (Option.mem_toList.mpr h)

/-- Writing a term to a location makes the term available and the location its
    holder, and takes away what was known about the location. -/
theorem holds_rewrite {term : Term} {loc : Loc} (h : facts.Consistent size) :
    holds fact ((facts.kill loc).register term loc) = true ↔
      (fact.1 = term ∧ ∀ holder, fact.2 = some holder → holder = loc) ∨
        (holds fact facts = true ∧ loc ∉ places fact) := by
  rw [← holds_kill h]
  have hother : holds fact (facts.kill loc) = true → fact.2 ≠ some loc :=
    fun hholds heq => ((holds_kill h).mp hholds).2 (mem_places heq)
  obtain ⟨e, none | holder⟩ := fact
  · rw [holds_none, holds_none, Available.has_register_iff]
    simp
  · rw [holds_some, holds_some, Available.holds_register_iff (h.kill loc).indexed]
    simp only [Option.some.injEq, forall_eq']
    refine or_congr_right (and_iff_left_of_imp fun hholds heq => ?_)
    exact hother (holds_some.mpr hholds) (congrArg some heq)

end

section

variable {original body : Body} {temps : Std.ExtTreeMap Inst Loc} {facts called : Available}
  {stmt : Inst} {command : Command} {fact : Term × Option Loc}

/-- A statement saves into the location that its command writes. -/
theorem saves_iff {loc : Loc} (hcommand : body.command? stmt = some command) :
    body.Saves stmt loc ↔ command.dest? = some loc := by
  rw [Body.Saves, hcommand]
  cases command with
  | save value dest => simp [Command.dest?]
  | call | use | label | jump | branch | ret | exit => simp [Command.dest?]

/-- A save makes the facts about its own term. -/
theorem makes_iff {value : Value} {dest : Loc}
    (hcommand : body.command? stmt = some (.save value dest)) :
    Makes body temps stmt fact ↔ dest ∉ fact.1.operands ∧ value.term? = some fact.1 ∧
      ∀ holder, fact.2 = some holder → holder = dest ∨ temps[stmt]? = some holder := by
  have hterm := termOf_eq (Body.command?_eq_some.mp hcommand).2
  constructor
  · rintro ⟨dest', ⟨hapart, value', hcommand', hterm'⟩, hholder⟩
    rw [hcommand] at hcommand'
    cases hcommand'
    rw [hterm] at hterm'
    exact ⟨hapart, Except.ok.inj hterm', hholder⟩
  · rintro ⟨hapart, hvalue, hholder⟩
    exact ⟨dest, ⟨hapart, value, hcommand, hterm.trans (congrArg _ hvalue)⟩, hholder⟩

/-- A statement that writes nothing makes no fact. -/
theorem not_makes_of_dest (hcommand : body.command? stmt = some command)
    (hdest : command.dest? = none) : ¬ Makes body temps stmt fact := by
  rintro ⟨dest, ⟨-, value, hcommand', -⟩, -⟩
  rw [hcommand] at hcommand'
  cases hcommand'
  cases hdest

/-- The places of a fact that holds are locations of the body. -/
theorem places_lt {size : Nat} (h : facts.Consistent size) (hholds : holds fact facts = true) :
    ∀ loc ∈ places fact, loc.index < size := by
  intro loc hloc
  obtain ⟨term, none | holder⟩ := fact
  · rw [places, Option.toList_none, List.append_nil] at hloc
    exact h.indexed.operand_lt (holds_none.mp hholds) hloc
  · rcases List.mem_append.mp hloc with hloc | hloc
    · exact h.indexed.operand_lt (holds_some.mp hholds).has hloc
    · cases List.mem_singleton.mp hloc
      exact h.indexed.holder_lt (holds_some.mp hholds)

variable (hsited : Sited original body temps)
include hsited

/-- The temporaries are no fields. -/
theorem Sited.isGlobal_iff {loc : Loc} (hlt : loc.index < body.locations.size) :
    body.isGlobal loc = .ok false ↔ original.isGlobal loc ≠ .ok true := by
  by_cases hold : loc.index < original.locations.size
  · have hsame := hsited.old hold
    have hlocation := Array.getElem?_eq_getElem hold
    rw [hlocation] at hsame
    rw [Body.isGlobal_eq hsame, Body.isGlobal_eq hlocation]
    cases original.locations[loc.index].isGlobal <;> simp
  · have htemp := hsited.new (Nat.not_lt.mp hold) hlt
    have hnone : original.locations[loc.index]? = none :=
      Array.getElem?_eq_none_iff.mpr (Nat.not_lt.mp hold)
    refine iff_of_true (Body.isGlobal_eq htemp) ?_
    rw [Body.isGlobal, Body.location, hnone]
    exact fun h => by cases h

/-- A call takes away the facts about fields. -/
theorem holds_called (h : facts.Consistent body.locations.size)
    (hcalled : calledFacts body facts stmt command = .ok called) :
    called.Consistent body.locations.size ∧ ∀ fact, holds fact called = true ↔
      holds fact facts = true ∧ ((command.callInst? stmt).isSome = true →
        ∀ loc ∈ places fact, original.isGlobal loc ≠ .ok true) := by
  rw [calledFacts] at hcalled
  split at hcalled
  · next hcall =>
      obtain ⟨left, hleft, hc, hhas, hholds⟩ := Available.killGlobals_spec h
      rw [hcalled] at hleft
      cases hleft
      refine ⟨hc, fun fact => ?_⟩
      -- the places of a fact are the operands of its term and its holder
      have hspared : holds fact facts = true → ((∀ loc ∈ places fact,
          body.isGlobal loc = .ok false) ↔ ∀ loc ∈ places fact, original.isGlobal loc ≠ .ok true) :=
        fun hfact => forall_congr' fun loc => imp_congr_right fun hloc =>
          hsited.isGlobal_iff (places_lt h hfact loc hloc)
      rw [imp_iff_right hcall]
      refine Iff.trans ?_ (and_congr_right hspared)
      obtain ⟨term, none | holder⟩ := fact
      · rw [holds_none, holds_none, hhas, places, Option.toList_none, List.append_nil]
      · rw [holds_some, holds_some, hholds, places, Option.toList_some]
        simp only [List.mem_append, List.mem_singleton, or_imp, forall_and, forall_eq]
  · next hcall =>
      cases hcalled
      exact ⟨h, fun fact => (and_iff_left fun hcall' => absurd hcall' hcall).symm⟩

/-- A fact that the temporary of a save takes part in says that it holds the
    term of the save. -/
theorem term_of_temp {passed : List Inst} (hflow : Flowing original body temps passed facts)
    {value : Value} {dest temp : Loc} {term : Term}
    (hcommand : body.command? stmt = some (.save value dest)) (hterm : value.term? = some term)
    (htemp : temps[stmt]? = some temp) (hholds : holds fact facts = true)
    (hmem : temp ∈ places fact) : fact = (term, some temp) := by
  have hnew := (hsited.temp htemp).1
  have hno : ∀ {e}, facts.Has e → temp ∉ e.operands :=
    fun he hoperand => absurd (hflow.operands he temp hoperand) (Nat.not_lt.mpr hnew)
  obtain ⟨e, none | holder⟩ := fact
  · rw [places, Option.toList_none, List.append_nil] at hmem
    exact absurd hmem (hno (holds_none.mp hholds))
  · have hfact := holds_some.mp hholds
    rcases List.mem_append.mp hmem with hmem | hmem
    · exact absurd hmem (hno hfact.has)
    · cases List.mem_singleton.mp hmem
      rw [KeyOf.unique hsited (hflow.key hfact hnew) ⟨stmt, value, dest, htemp, hcommand, hterm⟩]

variable (wf : WellFormed original)
include wf

/-- What a save of a term adds and takes away. -/
theorem holds_saved {passed : List Inst} (hflow : Flowing original body temps passed called)
    (hc : called.Consistent body.locations.size) {value : Value} {dest : Loc} {term : Term}
    (hstmt : stmt ∈ body.stmts) (hcommand : body.command? stmt = some (.save value dest))
    (hterm : value.term? = some term) (hapart : dest ∉ term.operands) :
    holds fact (behind temps stmt called (.save value dest)) = true ↔
      (fact.1 = term ∧
          ∀ holder, fact.2 = some holder → holder = dest ∨ temps[stmt]? = some holder) ∨
        (holds fact called = true ∧ dest ∉ places fact) := by
  have hplaced : Placed body temps stmt (.save value dest) :=
    ⟨(hsited.wellFormed wf).valid hstmt hcommand, fun htemp => (hsited.temp htemp).2⟩
  have hmentions : term.mentions dest = false := by
    rw [← Bool.not_eq_true]
    exact fun h => hapart (List.contains_iff_mem.mp h)
  have hwritten := @holds_rewrite called _ fact term dest hc
  rw [behind, hterm]
  dsimp only
  rw [hmentions, if_neg Bool.false_ne_true]
  -- without a temporary the save makes its destination a holder; with one, this as well
  cases htemp : temps[stmt]? with
  | none =>
      refine hwritten.trans (or_congr_left (and_congr_right fun _ => ?_))
      simp
  | some temp =>
      have hsaved := (hc.kill dest).register (hplaced.operands rfl hterm) (hplaced.dest rfl)
      have hlow := hsited.low wf hstmt hcommand
      have hnew := (hsited.temp htemp).1
      have hold : ∀ {loc : Loc}, loc.index < original.locations.size → temp ≠ loc :=
        fun hlt heq => absurd (heq ▸ hlt) (Nat.not_lt.mpr hnew)
      dsimp only
      rw [holds_rewrite hsaved, hwritten]
      constructor
      · rintro (⟨hsame, hholder⟩ | ⟨⟨hsame, hholder⟩ | hkept, -⟩)
        · exact Or.inl ⟨hsame, fun holder h => Or.inr (congrArg some (hholder holder h).symm)⟩
        · exact Or.inl ⟨hsame, fun holder h => Or.inl (hholder holder h)⟩
        · exact Or.inr hkept
      · rintro (⟨rfl, hholder⟩ | hkept)
        · by_cases hmem : fact.2 = some dest
          · -- the temporary is another location than the destination and the operands
            refine Or.inr ⟨Or.inl ⟨rfl, fun holder h => ?_⟩, fun htaken => ?_⟩
            · rw [hmem] at h
              exact (Option.some.inj h).symm
            · rw [places, hmem] at htaken
              rcases List.mem_append.mp htaken with htaken | htaken
              · obtain ⟨access, haccess, heq⟩ := Value.mem_operands_term hterm htaken
                exact hold (hlow.reads access haccess) heq.symm
              · exact hold (hlow.dest dest rfl) (List.mem_singleton.mp htaken)
          · refine Or.inl ⟨rfl, fun holder h => ?_⟩
            rcases hholder holder h with rfl | heq
            · exact absurd h hmem
            · exact (Option.some.inj heq).symm
        -- the temporary can have held no other term than that of its own site
        · by_cases hmem : temp ∈ places fact
          · cases term_of_temp hsited hflow hcommand hterm htemp hkept.1 hmem
            exact Or.inl ⟨rfl, fun holder h => (Option.some.inj h).symm⟩
          · exact Or.inr ⟨Or.inr hkept, hmem⟩

/-- What a statement writes makes facts, and takes away those about the location
    it writes. -/
theorem holds_behind (hstmt : stmt ∈ body.stmts) (hcommand : body.command? stmt = some command)
    {passed : List Inst} (hflow : Flowing original body temps passed called)
    (hc : called.Consistent body.locations.size) :
    holds fact (behind temps stmt called command) = true ↔ Makes original temps stmt fact ∨
      (holds fact called = true ∧ ∀ loc ∈ places fact, command.dest? ≠ some loc) := by
  have hcommand' := (hsited.command?_eq stmt).symm.trans hcommand
  cases command with
  | save value dest =>
      have hdest : (∀ loc ∈ places fact, (Command.save value dest).dest? ≠ some loc) ↔
          dest ∉ places fact := by
        simp only [Command.dest?, ne_eq, Option.some.injEq]
        exact ⟨fun h hmem => h dest hmem rfl, fun h loc hloc heq => h (heq ▸ hloc)⟩
      rw [hdest, makes_iff hcommand']
      -- a save of no term makes nothing, and a term that the save changes is not made
      cases hterm : value.term? with
      | none =>
          rw [behind, hterm, or_iff_right fun h => by cases h.2.1]
          exact holds_kill hc
      | some term =>
          by_cases hmem : dest ∈ term.operands
          · have hmentions : term.mentions dest = true := List.contains_iff_mem.mpr hmem
            rw [behind, hterm, or_iff_right]
            · dsimp only
              rw [if_pos hmentions]
              exact holds_kill hc
            · rintro ⟨hnot, hsame, -⟩
              cases hsame
              exact hnot hmem
          · rw [holds_saved hsited wf hflow hc hstmt hcommand hterm hmem]
            refine or_congr_left ⟨?_, ?_⟩
            · rintro ⟨rfl, hholder⟩
              exact ⟨hmem, rfl, hholder⟩
            · rintro ⟨-, hsame, hholder⟩
              exact ⟨(Option.some.inj hsame).symm, hholder⟩
  | call | use | label | jump | branch | ret | exit =>
      rw [or_iff_right (not_makes_of_dest hcommand' rfl)]
      exact (and_iff_left fun _ _ h => by cases h).symm

/-- **WHAT A STATEMENT LEAVES**: it makes facts, and those in front of it stay
    unless it disturbs what they are about. -/
theorem step_iff {walk next : Walk} {passed : List Inst} (hstmt : stmt ∈ body.stmts)
    (hflow : Flowing original body temps passed walk.facts) (hexact : Exact body walk.facts)
    (hstep : Walk.step body temps walk stmt = .ok next) :
    holds fact next.facts = true ↔ Makes original temps stmt fact ∨
      (holds fact walk.facts = true ∧ ∀ loc ∈ places fact, ¬ Disturbs original stmt loc) := by
  obtain ⟨command, hcommand, -⟩ := (hsited.wellFormed wf).commands stmt hstmt
  have hcommand' := (hsited.command?_eq stmt).symm.trans hcommand
  obtain ⟨called, hcalled, hnext⟩ := step_facts hcommand hstep
  obtain ⟨hc, hleft⟩ := holds_called hsited hexact.consistent hcalled
  have hkept : ∀ {fact}, holds fact called = true → holds fact walk.facts = true :=
    fun {fact} h => ((hleft fact).mp h).1
  -- the facts behind the call are facts in front of it, so they flow as those do
  have hflow' := hflow.weaken hc.indexed (fun h => holds_none.mp (hkept (holds_none.mpr h)))
    (fun h => holds_some.mp (hkept (holds_some.mpr h)))
  rw [hnext, holds_behind hsited wf hstmt hcommand hflow' hc, hleft, and_assoc]
  refine or_congr_right (and_congr_right fun _ => ?_)
  simp only [Disturbs, saves_iff hcommand', Body.hasCall_eq hcommand', Except.ok.injEq, not_or,
    not_and]
  constructor
  · rintro ⟨hcall, hdest⟩ loc hloc
    exact ⟨hdest loc hloc, fun hmade => hcall hmade loc hloc⟩
  · intro h
    exact ⟨fun hmade loc hloc => (h loc hloc).2 hmade, fun loc hloc => (h loc hloc).1⟩

/-- **WHAT A BLOCK LEAVES**: the facts that are on the way through it, and those
    in front of it that it leaves alone. -/
theorem walk_iff {stmts passed : List Inst} {walk last : Walk}
    (hstmts : ∀ stmt ∈ stmts, stmt ∈ body.stmts)
    (htracked : Tracked original body temps passed walk) (hexact : Exact body walk.facts)
    (hsteps : stmts.foldlM (Walk.step body temps) walk = .ok last) :
    holds fact last.facts = true ↔ On original temps fact stmts ∨ (holds fact walk.facts = true ∧
      ∀ stmt ∈ stmts, ∀ loc ∈ places fact, ¬ Disturbs original stmt loc) := by
  induction stmts generalizing passed walk with
  | nil =>
      cases hsteps
      rw [or_iff_right not_on_nil]
      exact (and_iff_left fun _ h => by cases h).symm
  -- the fact is made here and spared behind, or it comes from further in front
  | cons stmt stmts ih =>
      rw [List.foldlM_cons] at hsteps
      obtain ⟨next, hstep, hsteps⟩ := Checked.bind_eq_ok hsteps
      have hstmt := hstmts stmt List.mem_cons_self
      obtain ⟨command, hcommand, -⟩ := (hsited.wellFormed wf).commands stmt hstmt
      obtain ⟨next', hstep', -, -, htracked'⟩ := htracked.step hsited wf hstmt hcommand
      cases hstep.symm.trans hstep'
      rw [ih (fun other hother => hstmts other (List.mem_cons_of_mem _ hother)) htracked'
        (hexact.step hsited wf hstmt hstep) hsteps,
        step_iff hsited wf hstmt htracked.facts hexact hstep]
      have hon := @on_append original temps fact [stmt] stmts
      rw [on_singleton] at hon
      rw [show stmt :: stmts = [stmt] ++ stmts from rfl, hon]
      simp only [List.mem_append, List.mem_singleton, or_imp, forall_and, forall_eq]
      tauto

end

/-! ## Facts at the start of a block -/

/-- The empty state has no facts. -/
theorem not_holds_empty {fact : Term × Option Loc} : ¬ holds fact {} = true := by
  obtain ⟨term, none | holder⟩ := fact
  · exact fun h => Available.not_has_empty (holds_none.mp h)
  · exact fun h => Available.not_has_empty (holds_some.mp h).has

section

variable {original body : Body} {temps : Std.ExtTreeMap Inst Loc} {fact : Term × Option Loc}
  {graph : FlowGraph} {steps : Nat} {solution : Solution Available}
  (hsited : Sited original body temps) (wf : WellFormed original)
include hsited wf

/-- What flows out of a block. -/
theorem transfer_iff {block : Block} {input output : Available}
    (hgood : Flowing original body temps [] input ∧ Exact body input)
    (htransfer : (analysis body temps).transfer block input = .ok output) :
    holds fact output = true ↔ On original temps fact (original.stmtsOf block) ∨
      (holds fact input = true ∧ ∀ stmt ∈ original.stmtsOf block, ∀ loc ∈ places fact,
        ¬ Disturbs original stmt loc) := by
  obtain ⟨walk, hwalk, rfl⟩ := Checked.map_eq_ok htransfer
  rw [← hsited.stmtsOf_eq]
  exact walk_iff hsited wf (fun _ => Body.mem_stmts_of_stmtsOf) (.start hgood.1) hgood.2 hwalk

/-- All states of a solution flow, and are exact. -/
theorem good_solution (hsolve : solve steps graph (analysis body temps) = .ok solution) :
    Worklist.Satisfies (fun facts => Flowing original body temps [] facts ∧ Exact body facts)
      solution := by
  refine solve_invariant hsolve ⟨Flowing.empty, Exact.empty⟩ ⟨Flowing.empty, Exact.empty⟩
    (fun a b ha hb => (@descends _ _ _ hsited wf graph).join ha hb) ?_
  intro block input output hinput htransfer
  obtain ⟨walk, hwalk, rfl⟩ := Checked.map_eq_ok htransfer
  obtain ⟨walk', hwalk', htracked⟩ := walkBlock_ok hsited wf hinput.1 block
  cases hwalk.symm.trans hwalk'
  exact ⟨htracked.facts.leave, Exact.steps hsited wf (fun _ => Body.mem_stmts_of_stmtsOf)
    hinput.2 hwalk⟩

variable (hflow : graph.Of original)
  (hsolve : solve steps graph (analysis body temps) = .ok solution)
include hflow hsolve

/-- Something flows into a block at the end of every trail: nothing is known at
    the entry, and the output of a block flows along its edges. -/
theorem contribution_of_trail {block : Block} {passed : List Inst}
    (h : original.Trail graph block passed) :
    ∃ state ∈ (analysis body temps).contributions graph solution block,
      ∀ fact, holds fact state = true → On original temps fact passed := by
  have hdescends := @descends _ _ _ hsited wf graph
  induction h with
  -- nothing is known at the entry, so every fact of its input would be on the empty trail
  | @entry block h =>
      have hboundary : (analysis body temps).isBoundary graph block = true := beq_iff_eq.mpr h
      refine ⟨{}, ?_, fun fact hholds => absurd hholds not_holds_empty⟩
      rw [Analysis.contributions, if_pos hboundary]
      exact List.mem_append_left _ List.mem_cons_self
  -- what leaves the source is made in it, or was in the join of its own inputs
  | @next source target passed htrail hnext ih =>
      obtain ⟨state, hstate, hon⟩ := ih
      have hsource : source ∈ graph.blocks :=
        hflow.blocks ▸ Body.mem_blockKeys.mpr (Body.lt_of_trail wf hflow htrail)
      obtain ⟨output, -, htransfer, houtput⟩ := settled_of_solve hsolve hsource
      have hgood := good_joinInputs hdescends (good_solution hsited wf hsolve).2 source
      refine ⟨output, ?_, fun fact hholds => ?_⟩
      · rw [Analysis.contributions]
        refine List.mem_append_right _ (List.mem_filterMap.mpr ⟨source, ?_, houtput⟩)
        exact List.mem_filter.mpr ⟨hsource, List.contains_iff_mem.mpr hnext⟩
      · refine on_append.mpr (((transfer_iff hsited wf hgood htransfer).mp hholds).imp id ?_)
        rintro ⟨hinput, hspares⟩
        have hjoin := holds_joinInputs hdescends (good_solution hsited wf hsolve).2
          (List.ne_nil_of_mem hstate) fact
        exact ⟨hon fact (hjoin.mp hinput state hstate), hspares⟩

/-- **NOTHING ELSE IS FOUND**: the facts at the start of a block are on every
    trail to it. -/
theorem on_of_input {block : Block} {passed : List Inst} (h : original.Trail graph block passed)
    (hholds : holds fact ((analysis body temps).joinInputs graph solution block) = true) :
    On original temps fact passed := by
  obtain ⟨state, hstate, hon⟩ := contribution_of_trail hsited wf hflow hsolve h
  have hjoin := holds_joinInputs (@descends _ _ _ hsited wf graph)
    (good_solution hsited wf hsolve).2 (List.ne_nil_of_mem hstate) fact
  exact hon fact (hjoin.mp hholds state hstate)

omit hsited wf hflow hsolve in
/-- A fact that is missing in what flows into a block is missing on a trail to it. -/
theorem trail_of_neighbour {block : Block} (hblock : block ∈ graph.blocks)
    (h : ((analysis body temps).isBoundary graph block = true ∧
        holds fact (analysis body temps).initial = false) ∨
      ∃ other ∈ (analysis body temps).neighbours graph block, ∃ passed,
        original.Trail graph other passed ∧
          ¬ On original temps fact (passed ++ original.stmtsOf other)) :
    ∃ passed, original.Trail graph block passed ∧ ¬ On original temps fact passed := by
  rcases h with ⟨hboundary, -⟩ | ⟨other, hother, passed, htrail, hmissing⟩
  · exact ⟨[], .entry (beq_iff_eq.mp hboundary), not_on_nil⟩
  · exact ⟨_, htrail.next ((analysis body temps).mem_dependents graph hblock hother), hmissing⟩

variable (hreached : ∀ block ∈ graph.blocks, graph.Reached block)
include hreached

/-- A fact that does not leave a block is missing on a trail through it. -/
theorem trail_of_output {block : Block} {output : Available}
    (houtput : solution.outputs[block]? = some output) (hlacks : holds fact output = false) :
    ∃ passed, original.Trail graph block passed ∧
      ¬ On original temps fact (passed ++ original.stmtsOf block) := by
  have hclosed := wf.closed hflow
  refine lost_of_solve (descends hsited wf) hclosed
    (Or.inl (Analysis.fed_of_reached rfl hclosed hreached))
    (fun block fact => ∃ passed, original.Trail graph block passed ∧
      ¬ On original temps fact (passed ++ original.stmtsOf block)) ?_ hsolve houtput hlacks
  intro block input output fact hblock hgood htransfer hlacks hfront
  -- either the fact is missing in front of the block already, or the block takes it away
  have htrail : ∃ passed, original.Trail graph block passed ∧
      (On original temps fact passed → holds fact input = true) := by
    cases hinput : holds fact input with
    | false =>
        obtain ⟨passed, htrail, hmissing⟩ := trail_of_neighbour hblock (hfront hinput)
        exact ⟨passed, htrail, fun hon => absurd hon hmissing⟩
    | true =>
        obtain ⟨passed, htrail⟩ := Body.Trail.of_reached (hreached block hblock)
        exact ⟨passed, htrail, fun _ => rfl⟩
  obtain ⟨passed, htrail, hknown⟩ := htrail
  refine ⟨passed, htrail, fun hon => ?_⟩
  have hholds := (transfer_iff hsited wf hgood htransfer).mpr
    ((on_append.mp hon).imp id (And.imp_left hknown))
  rw [hlacks] at hholds
  cases hholds

/-- **NOTHING IS MISSED**: a fact that is on every trail to a block is found at
    its start. -/
theorem input_of_on {block : Block} (hblock : block ∈ graph.blocks)
    (h : ∀ passed, original.Trail graph block passed → On original temps fact passed) :
    holds fact ((analysis body temps).joinInputs graph solution block) = true := by
  obtain ⟨passed, htrail⟩ := Body.Trail.of_reached (hreached block hblock)
  obtain ⟨state, hstate, -⟩ := contribution_of_trail hsited wf hflow hsolve htrail
  rw [← Bool.not_eq_false]
  intro hlacks
  have hmissing := lacks_joinInputs (@descends _ _ _ hsited wf graph)
    (good_solution hsited wf hsolve).2 (Or.inl (List.ne_nil_of_mem hstate)) hlacks
  obtain ⟨passed, htrail, hnot⟩ := trail_of_neighbour hblock <| hmissing.imp id <| by
    rintro ⟨other, hother, output, houtput, hlacking⟩
    exact ⟨other, hother, trail_of_output hsited wf hflow hsolve hreached houtput hlacking⟩
  exact hnot (h passed htrail)

end

/-! ## Exactness -/

/-- The terms that are available at the start of a block are those that every
    way from the entry leaves available, and they are held where every way
    leaves them. -/
structure ExactAt (body : Body) (temps : Std.ExtTreeMap Inst Loc) (block : Block)
    (facts : Available) : Prop where
  contains : ∀ term, facts.contains term = true ↔
    ∀ passed, body.Way (body.startOf ⟨0⟩) passed (body.startOf block) →
      On body temps (term, none) passed
  holders : ∀ term loc, loc ∈ facts.holdersOf term ↔
    ∀ passed, body.Way (body.startOf ⟨0⟩) passed (body.startOf block) →
      On body temps (term, some loc) passed

/-- **AVAILABLE TERMS ARE FOUND EXACTLY** in a body without unreachable blocks:
    the analysis comes to an end, and what it finds at the start of a block is
    what every way of control from the entry leaves there. -/
theorem solve_exact {body : Body} (wf : WellFormed body) (hreached : body.AllReached) :
    ∃ graph temps sited, FlowGraph.ofBody body = .ok graph ∧ siteTemps body = .ok (temps, sited) ∧
      (∃ steps solution, solve steps graph (analysis sited temps) = .ok solution) ∧
      ∀ steps solution, solve steps graph (analysis sited temps) = .ok solution →
        ∀ block ∈ body.blockKeys, ∃ facts, solution.input block = .ok facts ∧
          ExactAt body temps block facts := by
  obtain ⟨graph, hgraph, hflow⟩ := wf.flowGraph_ok
  obtain ⟨temps, sited, htemps, hsited⟩ := siteTemps_ok wf
  have hclosed := wf.closed hflow
  have hall := hreached graph hgraph
  have hsolves := solve_of_descends (descends hsited wf) hclosed
    (Or.inl (Analysis.fed_of_reached rfl hclosed hall)) (Nat.le_refl _)
  -- the solution has just the facts that are on all trails, and trails are ways
  refine ⟨graph, temps, sited, hgraph, htemps, ⟨_, hsolves⟩, ?_⟩
  intro steps solution hsolve block hblock
  have hmem : block ∈ graph.blocks := hflow.blocks ▸ hblock
  obtain ⟨-, hinput, -⟩ := settled_of_solve hsolve hmem
  refine ⟨_, by rw [Solution.input, hinput], ?_⟩
  have hiff : ∀ fact, holds fact ((analysis sited temps).joinInputs graph solution block) = true ↔
      ∀ passed, body.Way (body.startOf ⟨0⟩) passed (body.startOf block) →
        On body temps fact passed := by
    intro fact
    simp only [Body.way_iff_trail wf hflow]
    exact ⟨fun h passed htrail => on_of_input hsited wf hflow hsolve htrail h,
      input_of_on hsited wf hflow hsolve hall hmem⟩
  refine ⟨fun term => hiff (term, none), fun term loc => ?_⟩
  rw [← hiff (term, some loc), holds, List.contains_iff_mem]

/-- The sum is available where the two paths meet, since both compute it. -/
theorem joinedSums_exact : WellFormed joinedSums ∧ joinedSums.AllReached ∧
    ∃ graph temps sited, FlowGraph.ofBody joinedSums = .ok graph ∧
      siteTemps joinedSums = .ok (temps, sited) ∧
      (∃ steps solution, solve steps graph (analysis sited temps) = .ok solution) ∧
      ∀ steps solution, solve steps graph (analysis sited temps) = .ok solution →
        ∀ block ∈ joinedSums.blockKeys, ∃ facts, solution.input block = .ok facts ∧
          ExactAt joinedSums temps block facts := by
  have wf : WellFormed joinedSums := by decide +kernel
  have hreached := @Body.allReached_of_reachesAll joinedSums (by decide +kernel)
  exact ⟨wf, hreached, solve_exact wf hreached⟩

end CommonTerms

end DecafBackend
