import DecafBackend.Optimize.ValueNumbers
import DecafBackend.Proofs.Commands
import DecafBackend.Proofs.Checked
import DecafBackend.Proofs.Maps

/-! # Numbers name values

    Every number that a table has given out stands for a value: the value of
    the locations that have it, and of the terms that have it.  A write gives a
    location a new number, and no value of an old one changes.

    * `Term.eval`, `NumberedTerm.eval` — the values of terms
    * `NumberTable.Bounded` — the locations that a table names exist
    * `NumberTable.Valid` — a table whose numbers stand for given values
    * `ofTerm_spec` — the number of a term stands for its value -/

namespace DecafBackend

/-! ## Values of terms -/

/-- The value of a term, given those of the locations. -/
def Term.eval (arithmetic : Arithmetic) (read : Loc → Option Word) : Term → Option Word
  | .leaf loc => read loc
  | .unary op operand => (read operand).map op.apply
  | .binary op lhs rhs => (read lhs).bind fun a => (read rhs).bind fun b => arithmetic.apply op a b

/-- The value of a term over numbers, given those of the numbers. -/
def NumberedTerm.eval (arithmetic : Arithmetic) (value : ValueNumber → Option Word) :
    NumberedTerm → Option Word
  | .unary op operand => (value operand).map op.apply
  | .binary op lhs rhs =>
    (value lhs).bind fun a => (value rhs).bind fun b => arithmetic.apply op a b

/-- The numbers that a term reads. -/
def NumberedTerm.operands : NumberedTerm → List ValueNumber
  | .unary _ operand => [operand]
  | .binary _ lhs rhs => [lhs, rhs]

/-- The term that a value computes, if it is one. -/
def Value.term? : Value → Option Term
  | .load src => some (.leaf src.loc)
  | .unary _ op operand => some (.unary op operand.loc)
  | .binary _ op lhs rhs => some (.canonical op lhs.loc rhs.loc)
  | .param _ _ | .call _ _ _ _ _ => none

section

variable {arithmetic : Arithmetic}

/-- A term has the value that its operands give it. -/
theorem Term.eval_congr {read read' : Loc → Option Word} {term : Term}
    (h : ∀ loc ∈ term.operands, read' loc = read loc) :
    term.eval arithmetic read' = term.eval arithmetic read := by
  cases term with
  | leaf loc => exact h loc List.mem_cons_self
  | unary op operand => rw [eval, eval, h operand List.mem_cons_self]
  | binary op lhs rhs =>
      rw [eval, eval, h lhs List.mem_cons_self, h rhs (List.mem_cons_of_mem _ List.mem_cons_self)]

/-- A numbered term has the value that its operands give it. -/
theorem NumberedTerm.eval_congr {value value' : ValueNumber → Option Word} {term : NumberedTerm}
    (h : ∀ number ∈ term.operands, value' number = value number) :
    term.eval arithmetic value' = term.eval arithmetic value := by
  cases term with
  | unary op operand => rw [eval, eval, h operand List.mem_cons_self]
  | binary op lhs rhs =>
      rw [eval, eval, h lhs List.mem_cons_self, h rhs (List.mem_cons_of_mem _ List.mem_cons_self)]

/-- Operands of a commutative operation may be exchanged. -/
theorem bind_comm {op : BinaryOp} (hop : op.isCommutative = true) (x y : Option Word) :
    (x.bind fun a => y.bind fun b => arithmetic.apply op a b) =
      y.bind fun a => x.bind fun b => arithmetic.apply op a b := by
  cases x with
  | none => cases y <;> rfl
  | some a =>
      cases y with
      | none => rfl
      | some b => exact arithmetic.comm op a b hop

/-- The order of operands that a canonical term chooses does not matter. -/
theorem Term.eval_canonical (read : Loc → Option Word) (op : BinaryOp) (lhs rhs : Loc) :
    (Term.canonical op lhs rhs).eval arithmetic read =
      (Term.binary op lhs rhs).eval arithmetic read := by
  rw [canonical]
  split
  · next h => exact bind_comm h.1 _ _
  · rfl

theorem Term.mem_operands_canonical {op : BinaryOp} {lhs rhs loc : Loc} :
    loc ∈ (Term.canonical op lhs rhs).operands ↔ loc = lhs ∨ loc = rhs := by
  rw [canonical]
  split
  · simp [operands, or_comm]
  · simp [operands]

end

/-- The operands of a value's term are what the value reads. -/
theorem Value.mem_operands_term {value : Value} {term : Term} (h : value.term? = some term)
    {loc : Loc} (hloc : loc ∈ term.operands) : ∃ access ∈ value.reads, access.loc = loc := by
  cases value with
  | load src =>
      cases h
      exact ⟨src, List.mem_cons_self, (List.mem_singleton.mp hloc).symm⟩
  | unary inst op operand =>
      cases h
      exact ⟨operand, List.mem_cons_self, (List.mem_singleton.mp hloc).symm⟩
  | binary inst op lhs rhs =>
      cases h
      rcases Term.mem_operands_canonical.mp hloc with rfl | rfl
      · exact ⟨lhs, List.mem_cons_self, rfl⟩
      · exact ⟨rhs, List.mem_cons_of_mem _ List.mem_cons_self, rfl⟩
  | param | call => cases h

/-- A value whose term has a value is computed without a trap. -/
theorem Body.evaluateValue_of_eval {setting : Setting} {body : Body} {store : Store}
    {calls : List CallEvent} {value : Value} {term : Term} {word : Word}
    (hterm : value.term? = some term)
    (heval : term.eval setting.arithmetic (body.read setting store) = some word) :
    body.evaluateValue setting store calls value = .ok ⟨word, store, calls⟩ := by
  -- only loads, unary and binary operations have a term
  cases value with
  | load src =>
      cases hterm
      rw [Term.eval] at heval
      rw [evaluateValue, heval]
  | unary inst op operand =>
      cases hterm
      rw [Term.eval] at heval
      obtain ⟨a, ha, rfl⟩ := Option.map_eq_some_iff.mp heval
      rw [evaluateValue, ha]
  | binary inst op lhs rhs =>
      cases hterm
      rw [Term.eval_canonical, Term.eval] at heval
      obtain ⟨a, ha, heval⟩ := Option.bind_eq_some_iff.mp heval
      obtain ⟨b, hb, heval⟩ := Option.bind_eq_some_iff.mp heval
      simp only [evaluateValue, ha, hb, heval]
  | param | call => cases hterm

/-- A value that is computed is the value of its term, and nothing else
    happens. -/
theorem Body.eval_of_evaluateValue {setting : Setting} {body : Body} {store : Store}
    {calls : List CallEvent} {value : Value} {term : Term} {reached : Body.Reached}
    (hterm : value.term? = some term)
    (hvalue : body.evaluateValue setting store calls value = .ok reached) :
    term.eval setting.arithmetic (body.read setting store) = some reached.value ∧
      reached.store = store ∧ reached.calls = calls := by
  cases heval : term.eval setting.arithmetic (body.read setting store) with
  | some word =>
      rw [evaluateValue_of_eval hterm heval] at hvalue
      cases hvalue
      exact ⟨rfl, rfl, rfl⟩
  | none =>
      -- without a value for the term the computation would have trapped
      exfalso
      cases value with
      | load src =>
          cases hterm
          rw [Term.eval] at heval
          simp only [evaluateValue, heval] at hvalue
          cases hvalue
      | unary inst op operand =>
          cases hterm
          rw [Term.eval, Option.map_eq_none_iff] at heval
          simp only [evaluateValue, heval] at hvalue
          cases hvalue
      | binary inst op lhs rhs =>
          cases hterm
          rw [Term.eval_canonical, Term.eval] at heval
          simp only [evaluateValue] at hvalue
          cases ha : body.read setting store lhs.loc with
          | none => simp only [ha] at hvalue; cases hvalue
          | some a =>
              cases hb : body.read setting store rhs.loc with
              | none => simp only [ha, hb] at hvalue; cases hvalue
              | some b =>
                  simp only [ha, hb, Option.bind_some] at heval
                  simp only [ha, hb, heval] at hvalue
                  cases hvalue
      | param | call => cases hterm

/-! ## Tables -/

namespace NumberTable

section

variable {table : NumberTable}

theorem ofLoc_temps (loc : Loc) : (table.ofLoc loc).2.temps = table.temps := by
  rw [NumberTable.ofLoc]
  cases table.locs[loc]? with
  | some number => rfl
  | none => rfl

theorem ofNumbered_temps (term : NumberedTerm) :
    (table.ofNumbered term).2.temps = table.temps := by
  rw [NumberTable.ofNumbered]
  cases table.terms.lookup term with
  | some number => rfl
  | none => rfl

/-- Looking numbers up remembers no value. -/
theorem ofTerm_temps (term : Term) : (table.ofTerm term).2.temps = table.temps := by
  cases term with
  | leaf loc => exact ofLoc_temps loc
  | unary op operand => exact (ofNumbered_temps _).trans (ofLoc_temps operand)
  | binary op lhs rhs =>
      exact (ofNumbered_temps _).trans ((ofLoc_temps rhs).trans (ofLoc_temps lhs))

/-- Defining a location forgets it as a temporary. -/
theorem temps_define {loc temp : Loc} {number other : ValueNumber}
    (h : (table.define loc number).temps[other]? = some temp) :
    table.temps[other]? = some temp ∧ temp ≠ loc := by
  simp only [NumberTable.define] at h
  rw [Std.ExtTreeMap.getElem?_filter', Option.filter_eq_some_iff] at h
  exact ⟨h.1, of_decide_eq_true h.2⟩

theorem temps_remember {temp new : Loc} {number other : ValueNumber}
    (h : (table.remember number new).temps[other]? = some temp) :
    (other = number ∧ temp = new) ∨ table.temps[other]? = some temp := by
  simp only [NumberTable.remember] at h
  rw [Maps.getElem?_insert] at h
  split at h
  · next heq =>
      cases h
      exact Or.inl ⟨heq.symm, rfl⟩
  · exact Or.inr h

end

/-- The locations that a table has numbers for exist, and values are remembered
    in temporaries only. -/
structure Bounded (body : Body) (table : NumberTable) : Prop where
  locs : ∀ {loc : Loc}, loc ∈ table.locs → loc.index < body.locations.size
  temps : ∀ {number : ValueNumber} {temp : Loc}, table.temps[number]? = some temp →
    body.locations[temp.index]? = some .temp

/-- A table whose numbers stand for values: `read` gives the contents of the
    tracked locations, and `keeps` tells what a temporary is known to hold. -/
structure Valid (arithmetic : Arithmetic) (tracked : Loc → Prop) (read : Loc → Option Word)
    (keeps : Loc → Word → Prop) (value : ValueNumber → Option Word) (table : NumberTable) :
    Prop where
  locs : ∀ {loc : Loc} {number : ValueNumber}, table.locs[loc]? = some number →
    number < table.next ∧ (tracked loc → read loc = value number)
  terms : ∀ {term : NumberedTerm} {number : ValueNumber}, (term, number) ∈ table.terms →
    number < table.next ∧ (∀ operand ∈ term.operands, operand < table.next) ∧
      term.eval arithmetic value = value number
  temps : ∀ {number : ValueNumber} {temp : Loc}, table.temps[number]? = some temp →
    number < table.next ∧ ∃ word, value number = some word ∧ keeps temp word

theorem Bounded.empty (body : Body) : Bounded body {} where
  locs h := absurd h Std.ExtTreeMap.not_mem_empty
  temps h := by cases h

theorem Valid.empty {arithmetic : Arithmetic} {tracked : Loc → Prop} {read : Loc → Option Word}
    {keeps : Loc → Word → Prop} {value : ValueNumber → Option Word} :
    Valid arithmetic tracked read keeps value {} where
  locs h := by cases h
  terms h := by cases h
  temps h := by cases h

/-- A table that has given out more numbers than another one, for values that
    extend those of the other. -/
structure Later (early late : NumberTable) (value value' : ValueNumber → Option Word) : Prop where
  next : early.next ≤ late.next
  same : ∀ number < early.next, value' number = value number

theorem Later.refl {table : NumberTable} {value : ValueNumber → Option Word} :
    Later table table value value := ⟨Nat.le_refl _, fun _ _ => rfl⟩

/-- Later tables follow one another. -/
theorem Later.trans {a b c : NumberTable} {u v w : ValueNumber → Option Word}
    (h₁ : Later a b u v) (h₂ : Later b c v w) : Later a c u w where
  next := Nat.le_trans h₁.next h₂.next
  same number hlt :=
    (h₂.same number (Nat.lt_of_lt_of_le hlt h₁.next)).trans (h₁.same number hlt)

section

variable {arithmetic : Arithmetic} {tracked : Loc → Prop} {read : Loc → Option Word}
  {keeps : Loc → Word → Prop} {value : ValueNumber → Option Word} {table : NumberTable}

/-- A new number may stand for any value. -/
theorem Valid.fresh (h : Valid arithmetic tracked read keeps value table) (word : Option Word) :
    ∃ value', Valid arithmetic tracked read keeps value' table.fresh.2 ∧
      value' table.fresh.1 = word ∧ table.fresh.1 < table.fresh.2.next ∧
      Later table table.fresh.2 value value' := by
  -- the number is new, so no old entry speaks of its value
  let value' : ValueNumber → Option Word := fun number =>
    if number = table.next then word else value number
  have hsame : ∀ number < table.next, value' number = value number :=
    fun number hlt => if_neg (Nat.ne_of_lt hlt)
  have hgrow : ∀ {number}, number < table.next → number < table.fresh.2.next :=
    fun hlt => Nat.lt_succ_of_lt hlt
  refine ⟨value', ⟨?_, ?_, ?_⟩, if_pos rfl, Nat.lt_succ_self _, Nat.le_succ _, hsame⟩
  · intro loc number hloc
    obtain ⟨hlt, hread⟩ := h.locs hloc
    exact ⟨hgrow hlt, fun ht => (hread ht).trans (hsame number hlt).symm⟩
  · intro term number hterm
    obtain ⟨hlt, hoperands, heval⟩ := h.terms hterm
    refine ⟨hgrow hlt, fun operand hoperand => hgrow (hoperands operand hoperand), ?_⟩
    rw [hsame number hlt, ← heval]
    exact NumberedTerm.eval_congr fun operand hoperand => hsame operand (hoperands operand hoperand)
  · intro number temp htemp
    obtain ⟨hlt, w, hw, hkeeps⟩ := h.temps htemp
    exact ⟨hgrow hlt, w, (hsame number hlt).trans hw, hkeeps⟩

/-- What a look-up of a number comes to. -/
structure Numbered (arithmetic : Arithmetic) (tracked : Loc → Prop) (read : Loc → Option Word)
    (keeps : Loc → Word → Prop) (value : ValueNumber → Option Word) (table : NumberTable)
    (word : Option Word) (result : ValueNumber × NumberTable)
    (value' : ValueNumber → Option Word) : Prop where
  valid : Valid arithmetic tracked read keeps value' result.2
  number : result.1 < result.2.next
  word : value' result.1 = word
  later : Later table result.2 value value'

/-- The number of a location stands for the value read there. -/
theorem ofLoc_spec {loc : Loc} (h : Valid arithmetic tracked read keeps value table)
    (hloc : tracked loc) :
    ∃ value', Numbered arithmetic tracked read keeps value table (read loc) (table.ofLoc loc)
      value' := by
  rw [ofLoc]
  cases hnumber : table.locs[loc]? with
  | some number =>
      obtain ⟨hlt, hread⟩ := h.locs hnumber
      exact ⟨value, h, hlt, (hread hloc).symm, Later.refl⟩
  | none =>
      obtain ⟨value', hvalid, hword, hlt, hlater⟩ := h.fresh (read loc)
      refine ⟨value', ⟨?_, hvalid.terms, hvalid.temps⟩, hlt, hword, hlater.next, hlater.same⟩
      intro other number hother
      rw [Maps.getElem?_insert] at hother
      split at hother
      · next heq =>
          cases hother
          exact ⟨hlt, fun _ => heq ▸ hword.symm⟩
      · exact hvalid.locs hother

/-- The number of a term over numbers stands for its value. -/
theorem ofNumbered_spec {term : NumberedTerm} (h : Valid arithmetic tracked read keeps value table)
    (hterm : ∀ operand ∈ term.operands, operand < table.next) :
    ∃ value', Numbered arithmetic tracked read keeps value table (term.eval arithmetic value)
      (table.ofNumbered term) value' := by
  rw [ofNumbered]
  -- a term met before has its old number, which stands for the same value
  cases hnumber : table.terms.lookup term with
  | some number =>
      obtain ⟨front, back, hterms, -⟩ := List.lookup_eq_some_iff.mp hnumber
      have hmem : (term, number) ∈ table.terms := by
        rw [hterms]
        exact List.mem_append_right _ List.mem_cons_self
      obtain ⟨hlt, -, heval⟩ := h.terms hmem
      exact ⟨value, h, hlt, heval.symm, Later.refl⟩
  | none =>
      obtain ⟨value', hvalid, hword, hlt, hlater⟩ := h.fresh (term.eval arithmetic value)
      refine ⟨value', ⟨hvalid.locs, ?_, hvalid.temps⟩, hlt, hword, hlater.next, hlater.same⟩
      intro other number hother
      rcases List.mem_cons.mp hother with heq | hother
      · cases heq
        refine ⟨hlt, fun operand hoperand => ?_, ?_⟩
        · exact Nat.lt_of_lt_of_le (hterm operand hoperand) hlater.next
        · rw [hword]
          exact NumberedTerm.eval_congr fun operand hoperand =>
            hlater.same operand (hterm operand hoperand)
      · exact hvalid.terms hother

/-- **NUMBERS OF TERMS**: the number of a term stands for its value. -/
theorem ofTerm_spec {term : Term} (h : Valid arithmetic tracked read keeps value table)
    (hterm : ∀ loc ∈ term.operands, tracked loc) :
    ∃ value', Numbered arithmetic tracked read keeps value table (term.eval arithmetic read)
      (table.ofTerm term) value' := by
  cases term with
  | leaf loc => exact ofLoc_spec h (hterm loc List.mem_cons_self)
  | unary op operand =>
      obtain ⟨v₁, hfirst⟩ := ofLoc_spec h (hterm operand List.mem_cons_self)
      have hoperands : ∀ number ∈ (NumberedTerm.unary op (table.ofLoc operand).1).operands,
          number < (table.ofLoc operand).2.next := by
        intro number hnumber
        rw [List.mem_singleton.mp hnumber]
        exact hfirst.number
      obtain ⟨v₂, hsecond⟩ := ofNumbered_spec hfirst.valid hoperands
      refine ⟨v₂, hsecond.valid, hsecond.number, ?_, hfirst.later.trans hsecond.later⟩
      refine hsecond.word.trans ?_
      rw [NumberedTerm.eval, hfirst.word, Term.eval]
  | binary op lhs rhs =>
      obtain ⟨v₁, hleft⟩ := ofLoc_spec h (hterm lhs List.mem_cons_self)
      obtain ⟨v₂, hright⟩ := ofLoc_spec hleft.valid
        (hterm rhs (List.mem_cons_of_mem _ List.mem_cons_self))
      -- the operands of a commutative operation come in the order of their numbers
      let a := (table.ofLoc lhs).1
      let b := ((table.ofLoc lhs).2.ofLoc rhs).1
      have ha : a < ((table.ofLoc lhs).2.ofLoc rhs).2.next :=
        Nat.lt_of_lt_of_le hleft.number hright.later.next
      have hva : v₂ a = read lhs := (hright.later.same a hleft.number).trans hleft.word
      let numbered : NumberedTerm :=
        if op.isCommutative ∧ b < a then .binary op b a else .binary op a b
      have hoperands : ∀ number ∈ numbered.operands,
          number < ((table.ofLoc lhs).2.ofLoc rhs).2.next := by
        intro number hnumber
        have hcases : number = a ∨ number = b := by
          simp only [numbered] at hnumber
          split at hnumber
          · simpa [NumberedTerm.operands, or_comm] using hnumber
          · simpa [NumberedTerm.operands] using hnumber
        rcases hcases with rfl | rfl
        · exact ha
        · exact hright.number
      obtain ⟨v₃, hwhole⟩ := ofNumbered_spec hright.valid hoperands
      refine ⟨v₃, hwhole.valid, hwhole.number, ?_,
        (hleft.later.trans hright.later).trans hwhole.later⟩
      refine hwhole.word.trans ?_
      rw [Term.eval, ← hva, ← hright.word]
      simp only [numbered]
      split
      · next hcomm => exact bind_comm hcomm.1 _ _
      · rfl

/-- Less may be tracked. -/
theorem Valid.weaken {tracked' : Loc → Prop}
    (h : Valid arithmetic tracked read keeps value table)
    (himp : ∀ loc, tracked' loc → tracked loc) : Valid arithmetic tracked' read keeps value table :=
  ⟨fun hloc => ⟨(h.locs hloc).1, fun ht => (h.locs hloc).2 (himp _ ht)⟩, h.terms, h.temps⟩

/-- A write gives the location a number for the new value; the old number may be wrong. -/
theorem Valid.write {read' : Loc → Option Word} {keeps' : Loc → Word → Prop} {loc : Loc}
    {number : ValueNumber}
    (h : Valid arithmetic (fun other => tracked other ∧ other ≠ loc) read keeps value table)
    (hnumber : number < table.next) (hnew : tracked loc → read' loc = value number)
    (hread : ∀ other, tracked other → other ≠ loc → read' other = read other)
    (hkeeps : ∀ {other : ValueNumber} {temp : Loc} {word : Word},
      table.temps[other]? = some temp → temp ≠ loc → keeps temp word → keeps' temp word) :
    Valid arithmetic tracked read' keeps' value (table.define loc number) where
  locs {other n} hother := by
    simp only [NumberTable.define] at hother
    rw [Maps.getElem?_insert] at hother
    split at hother
    · next heq =>
        cases hother
        exact ⟨hnumber, fun ht => heq ▸ hnew (heq ▸ ht)⟩
    · next hne =>
        obtain ⟨hlt, hsame⟩ := h.locs hother
        exact ⟨hlt, fun ht => (hread other ht (Ne.symm hne)).trans (hsame ⟨ht, Ne.symm hne⟩)⟩
  terms := h.terms
  temps {n temp} htemp := by
    obtain ⟨htemp, hne⟩ := temps_define htemp
    obtain ⟨hlt, w, hw, hk⟩ := h.temps htemp
    exact ⟨hlt, w, hw, hkeeps htemp hne hk⟩

/-- A location gets the number of its new value. -/
theorem Valid.define {read' : Loc → Option Word} {keeps' : Loc → Word → Prop} {loc : Loc}
    {number : ValueNumber} (h : Valid arithmetic tracked read keeps value table)
    (hnumber : number < table.next) (hnew : tracked loc → read' loc = value number)
    (hread : ∀ other, tracked other → other ≠ loc → read' other = read other)
    (hkeeps : ∀ {other : ValueNumber} {temp : Loc} {word : Word},
      table.temps[other]? = some temp → temp ≠ loc → keeps temp word → keeps' temp word) :
    Valid arithmetic tracked read' keeps' value (table.define loc number) :=
  (h.weaken fun _ ht => ht.1).write hnumber hnew hread hkeeps

/-- A location with contents that no number is known for gets a number of its own. -/
theorem Valid.overwrite {loc : Loc}
    (h : Valid arithmetic (fun other => tracked other ∧ other ≠ loc) read keeps value table) :
    ∃ value', Valid arithmetic tracked read keeps value'
      (table.fresh.2.define loc table.fresh.1) := by
  obtain ⟨value', hfresh, hword, hlt, -⟩ := h.fresh (read loc)
  exact ⟨value', hfresh.write hlt (fun _ => hword.symm) (fun _ _ _ => rfl) fun _ _ hk => hk⟩

theorem Valid.remember {number : ValueNumber} {temp : Loc} {word : Word}
    (h : Valid arithmetic tracked read keeps value table) (hnumber : number < table.next)
    (hword : value number = some word) (hkeeps : keeps temp word) :
    Valid arithmetic tracked read keeps value (table.remember number temp) where
  locs := h.locs
  terms := h.terms
  temps {n t} ht := by
    rcases temps_remember ht with ⟨rfl, rfl⟩ | hold
    · exact ⟨hnumber, word, hword, hkeeps⟩
    · exact h.temps hold

end

/-! ## The locations that a table names -/

section

variable {body : Body} {table : NumberTable}

theorem Bounded.ofLoc (h : table.Bounded body) {loc : Loc}
    (hloc : loc.index < body.locations.size) : (table.ofLoc loc).2.Bounded body := by
  rw [NumberTable.ofLoc]
  cases table.locs[loc]? with
  | some number => exact h
  | none =>
      refine ⟨?_, h.temps⟩
      intro other hother
      rcases Maps.mem_insert.mp hother with rfl | hother
      · exact hloc
      · exact h.locs hother

theorem Bounded.ofNumbered (h : table.Bounded body) (term : NumberedTerm) :
    (table.ofNumbered term).2.Bounded body := by
  rw [NumberTable.ofNumbered]
  cases table.terms.lookup term with
  | some number => exact h
  | none => exact ⟨h.locs, h.temps⟩

/-- A term of locations of the body is numbered within the body. -/
theorem Bounded.ofTerm (h : table.Bounded body) {term : Term}
    (hterm : ∀ loc ∈ term.operands, loc.index < body.locations.size) :
    (table.ofTerm term).2.Bounded body := by
  cases term with
  | leaf loc => exact h.ofLoc (hterm loc List.mem_cons_self)
  | unary op operand => exact (h.ofLoc (hterm operand List.mem_cons_self)).ofNumbered _
  | binary op lhs rhs =>
      exact ((h.ofLoc (hterm lhs List.mem_cons_self)).ofLoc
        (hterm rhs (List.mem_cons_of_mem _ List.mem_cons_self))).ofNumbered _

theorem Bounded.define (h : table.Bounded body) {loc : Loc}
    (hloc : loc.index < body.locations.size) (number : ValueNumber) :
    (table.define loc number).Bounded body where
  locs hother := by
    rcases Maps.mem_insert.mp hother with rfl | hother
    · exact hloc
    · exact h.locs hother
  temps htemp := h.temps (temps_define htemp).1

theorem Bounded.remember (h : table.Bounded body) {temp : Loc}
    (htemp : body.locations[temp.index]? = some .temp) (number : ValueNumber) :
    (table.remember number temp).Bounded body where
  locs := h.locs
  temps hother := by
    rcases temps_remember hother with ⟨-, rfl⟩ | hold
    · exact htemp
    · exact h.temps hold

/-- What a table still says after a call: nothing about fields. -/
structure Spared (body : Body) (table left : NumberTable) : Prop where
  next : left.next = table.next
  terms : left.terms = table.terms
  temps : left.temps = table.temps
  locs : ∀ {loc : Loc} {number : ValueNumber}, left.locs[loc]? = some number →
    table.locs[loc]? = some number ∧ body.isGlobal loc = .ok false
  kept : ∀ {loc : Loc}, body.isGlobal loc = .ok false → left.locs[loc]? = table.locs[loc]?

/-- Forgetting fields succeeds and spares everything else. -/
theorem forgetGlobals_ok (h : table.Bounded body) :
    ∃ left, table.forgetGlobals body = .ok left ∧ left.Bounded body ∧
      Spared body table left := by
  obtain ⟨isField, hlook, hfields⟩ : ∃ isField : Loc → Bool,
      (∀ loc ∈ table.locs.keys, body.isGlobal loc = .ok (isField loc)) ∧
        table.locs.keys.filterM body.isGlobal = .ok (table.locs.keys.filter isField) :=
    Checked.filterM_ok fun loc hloc =>
      Body.isGlobal_ok (h.locs (Std.ExtTreeMap.mem_keys.mp hloc))
  let fields := table.locs.keys.filter isField
  -- only temporaries remember values, so none of them is forgotten
  have hstale : ∀ {test : ValueNumber × Loc → Checked Bool},
      (∀ pair, test pair = body.isGlobal pair.2) → table.temps.toList.filterM test = .ok [] := by
    intro test htest
    have hnone : table.temps.toList.filter (fun _ => false) = [] :=
      List.filter_eq_nil_iff.mpr fun _ _ => Bool.false_ne_true
    rw [← hnone]
    refine Checked.filterM_eq fun pair hpair => ?_
    rw [htest]
    exact Body.isGlobal_eq (h.temps (Std.ExtTreeMap.mem_toList_iff_getElem?_eq_some.mp hpair))
  have hspared : Spared body table { table with locs := fields.foldl (·.erase ·) table.locs } := by
    refine ⟨rfl, rfl, rfl, ?_, ?_⟩
    · intro loc number hloc
      have hold := Maps.getElem?_of_foldl_erase hloc
      refine ⟨hold, ?_⟩
      have hkey : loc ∈ table.locs.keys := Std.ExtTreeMap.mem_keys.mpr (Maps.mem_of_getElem? hold)
      rw [hlook loc hkey]
      cases hfield : isField loc with
      | false => rfl
      | true =>
          exact absurd rfl (Maps.ne_of_foldl_erase hloc loc (List.mem_filter.mpr ⟨hkey, hfield⟩))
    -- a location that is no field is none of the erased ones
    · intro loc hlocal
      refine Maps.getElem?_foldl_erase fun field hfield heq => ?_
      obtain ⟨hkey, htrue⟩ := List.mem_filter.mp hfield
      rw [← heq, hlook field hkey, htrue] at hlocal
      cases hlocal
  refine ⟨{ table with locs := fields.foldl (·.erase ·) table.locs }, ?_, ?_, hspared⟩
  · rw [forgetGlobals, hfields, hstale fun _ => rfl]
    rfl
  · exact ⟨fun hloc => h.locs (Maps.mem_of_mem_foldl_erase hloc), h.temps⟩

/-- A call changes fields only. -/
theorem Valid.spared {arithmetic : Arithmetic} {tracked : Loc → Prop} {left : NumberTable}
    {read read' : Loc → Option Word} {keeps keeps' : Loc → Word → Prop}
    {value : ValueNumber → Option Word} (h : Valid arithmetic tracked read keeps value table)
    (hspared : Spared body table left)
    (hread : ∀ loc, tracked loc → body.isGlobal loc = .ok false → read' loc = read loc)
    (hkeeps : ∀ {other : ValueNumber} {temp : Loc} {word : Word},
      table.temps[other]? = some temp → keeps temp word → keeps' temp word) :
    Valid arithmetic tracked read' keeps' value left where
  locs hloc := by
    obtain ⟨hloc, hlocal⟩ := hspared.locs hloc
    obtain ⟨hlt, hsame⟩ := h.locs hloc
    exact ⟨hspared.next ▸ hlt, fun ht => (hread _ ht hlocal).trans (hsame ht)⟩
  terms hterm := by
    rw [hspared.terms] at hterm
    rw [hspared.next]
    exact h.terms hterm
  temps htemp := by
    rw [hspared.temps] at htemp
    obtain ⟨hlt, word, hword, hk⟩ := h.temps htemp
    exact ⟨hspared.next ▸ hlt, word, hword, hkeeps htemp hk⟩

end

end NumberTable

end DecafBackend
