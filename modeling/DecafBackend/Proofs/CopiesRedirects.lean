import DecafBackend.Proofs.BodyEdits
import DecafBackend.Proofs.CopiesFacts
import DecafBackend.Proofs.Points

/-! # Redirected loads

    A load of a copy is made to read what was copied.  Every statement is
    changed by the copies in front of it, and it does what it did, as long as
    the copies have the contents of what they were copied from.

    * `Command.mapLoads`, `perform_mapLoads` — commands whose loads read
      something else of the same contents
    * `redirectAll` — the records after some loads were redirected
    * `Ahead`, `redirects_spec` — which loads of a body are redirected, and where to
    * `command?_redirected` — every statement is changed by the copies in front
      of it -/

namespace DecafBackend

/-! ## Loads -/

/-- The loads of a value, in order. -/
def Value.loads : Value → List Access
  | .load src => [src]
  | .unary _ _ operand => [operand]
  | .binary _ _ lhs rhs => [lhs, rhs]
  | .param _ _ | .call _ _ _ _ _ => []

/-- The loads of a statement, in order. -/
def Command.loads : Command → List Access
  | .save value _ => value.loads
  | .branch cond _ => [cond]
  | .ret (some value) => [value]
  | _ => []

/-- A record with what it loads replaced. -/
def Record.mapLoad (f : Loc → Loc) : Record → Record
  | .load src => .load (f src)
  | record => record

/-- A value with what it loads replaced. -/
def Value.mapLoads (f : Loc → Loc) : Value → Value
  | .load src => .load ⟨src.inst, f src.loc⟩
  | .unary inst op operand => .unary inst op ⟨operand.inst, f operand.loc⟩
  | .binary inst op lhs rhs => .binary inst op ⟨lhs.inst, f lhs.loc⟩ ⟨rhs.inst, f rhs.loc⟩
  | .param inst index => .param inst index
  | .call inst target args isExternal saved => .call inst target args isExternal saved

/-- A command with what it loads replaced. -/
def Command.mapLoads (f : Loc → Loc) : Command → Command
  | .save value dest => .save (value.mapLoads f) dest
  | .branch cond target => .branch ⟨cond.inst, f cond.loc⟩ target
  | .ret value => .ret (value.map fun access => ⟨access.inst, f access.loc⟩)
  | command => command

namespace Command

variable {f : Loc → Loc}

/-- Other loads leave the records of a statement in place. -/
theorem owned_mapLoads (command : Command) : (command.mapLoads f).owned = command.owned := by
  cases command with
  | save value dest => cases value <;> rfl
  | ret value => cases value <;> rfl
  | _ => rfl

/-- Other loads save to the same location. -/
theorem dest?_mapLoads (command : Command) : (command.mapLoads f).dest? = command.dest? := by
  cases command <;> rfl

/-- Other loads jump to the same label. -/
theorem target?_mapLoads (command : Command) : (command.mapLoads f).target? = command.target? := by
  cases command <;> rfl

theorem endsBlock_mapLoads (command : Command) :
    (command.mapLoads f).endsBlock = command.endsBlock := by
  cases command <;> rfl

theorem isTerminator_mapLoads (command : Command) :
    (command.mapLoads f).isTerminator = command.isTerminator := by
  cases command <;> rfl

/-- Every read is a read of before, or a load that reads something else. -/
theorem mem_reads_mapLoads {stmt : Inst} {command : Command} {access : Access}
    (h : access ∈ (command.mapLoads f).reads stmt) :
    access ∈ command.reads stmt ∨ ∃ old ∈ command.reads stmt, access = ⟨old.inst, f old.loc⟩ := by
  cases command with
  | save value dest =>
      cases value with
      | load src =>
          rw [List.mem_singleton.mp h]
          exact Or.inr ⟨src, List.mem_cons_self, rfl⟩
      | unary inst op operand =>
          rw [List.mem_singleton.mp h]
          exact Or.inr ⟨operand, List.mem_cons_self, rfl⟩
      | binary inst op lhs rhs =>
          rcases List.mem_cons.mp h with rfl | h
          · exact Or.inr ⟨lhs, List.mem_cons_self, rfl⟩
          · rw [List.mem_singleton.mp h]
            exact Or.inr ⟨rhs, List.mem_cons_of_mem _ List.mem_cons_self, rfl⟩
      | param | call => exact Or.inl h
  | branch cond target =>
      rw [List.mem_singleton.mp h]
      exact Or.inr ⟨cond, List.mem_cons_self, rfl⟩
  | ret value =>
      cases value with
      | none => cases h
      | some value =>
          rw [List.mem_singleton.mp h]
          exact Or.inr ⟨value, List.mem_cons_self, rfl⟩
  | call | use | label | jump | exit => exact Or.inl h

end Command

namespace Body

variable {setting : Setting} {body body' : Body} {f : Loc → Loc}

/-- A value whose loads all had their locations replaced. -/
theorem isValue_mapLoads {value : Value} (h : body.IsValue value)
    (hrecords : ∀ inst ∈ value.insts,
      body'.records[inst.index]? = (body.records[inst.index]?).map (Record.mapLoad f)) :
    body'.IsValue (value.mapLoads f) := by
  have hat : ∀ {inst : Inst} {record : Record}, inst ∈ value.insts →
      body.records[inst.index]? = some record →
      body'.records[inst.index]? = some (record.mapLoad f) := by
    intro inst record hinst hrecord
    rw [hrecords inst hinst, hrecord]
    rfl
  cases value with
  | load src => exact hat (by simp [Value.insts]) h
  | param inst index => exact hat (by simp [Value.insts]) h
  | call inst target args isExternal saved => exact hat (by simp [Value.insts]) h
  | unary inst op operand =>
      exact ⟨hat (by simp [Value.insts]) h.1, hat (by simp [Value.insts]) h.2⟩
  | binary inst op lhs rhs =>
      exact ⟨hat (by simp [Value.insts]) h.1, hat (by simp [Value.insts]) h.2.1,
        hat (by simp [Value.insts]) h.2.2⟩

/-- A statement whose loads all had their locations replaced. -/
theorem command?_mapLoads {stmt : Inst} {command : Command}
    (h : body.command? stmt = some command)
    (hrecords : ∀ inst ∈ command.owned ++ [stmt],
      body'.records[inst.index]? = (body.records[inst.index]?).map (Record.mapLoad f)) :
    body'.command? stmt = some (command.mapLoads f) := by
  have hat : ∀ {inst : Inst} {record : Record}, inst ∈ command.owned ++ [stmt] →
      body.records[inst.index]? = some record →
      body'.records[inst.index]? = some (record.mapLoad f) := by
    intro inst record hinst hrecord
    rw [hrecords inst hinst, hrecord]
    rfl
  have hstmt : stmt ∈ command.owned ++ [stmt] := List.mem_append_right _ List.mem_cons_self
  rw [command?_eq_some] at h ⊢
  cases command with
  | save value dest =>
      refine ⟨?_, isValue_mapLoads h.2 fun inst hinst =>
        hrecords inst (List.mem_append_left _ hinst)⟩
      have hsave := hat hstmt h.1
      cases value <;> exact hsave
  | branch cond target => exact ⟨hat hstmt h.1, hat (by simp [Command.owned]) h.2⟩
  | ret value =>
      cases value with
      | none => exact hat hstmt h
      | some value => exact ⟨hat hstmt h.1, hat (by simp [Command.owned]) h.2⟩
  | call target args isExternal saved => exact hat hstmt h
  | use loc => exact hat hstmt h
  | label place => exact hat hstmt h
  | jump target => exact hat hstmt h
  | exit code => exact hat hstmt h

section

variable (hlocations : body'.locations = body.locations)
include hlocations

/-- Reads depend on the locations only. -/
theorem read_eq_of_locations (setting : Setting) : body'.read setting = body.read setting := by
  funext store loc
  exact read_congr (by rw [hlocations])

/-- Writes depend on the locations only. -/
theorem write_eq_of_locations (setting : Setting) : body'.write setting = body.write setting := by
  funext store loc word
  exact write_congr (by rw [hlocations])

/-- A value whose loads hold the same as before is evaluated as before. -/
theorem evaluateValue_mapLoads {store : Store} {value : Value}
    (hreads : ∀ access ∈ value.loads,
      body.read setting store (f access.loc) = body.read setting store access.loc)
    (calls : List CallEvent) :
    body'.evaluateValue setting store calls (value.mapLoads f) =
      body.evaluateValue setting store calls value := by
  have hread := read_eq_of_locations hlocations setting
  cases value with
  | load src => simp only [Value.mapLoads, evaluateValue, hread, hreads src List.mem_cons_self]
  | param inst index => rfl
  | unary inst op operand =>
      simp only [Value.mapLoads, evaluateValue, hread, hreads operand List.mem_cons_self]
  | binary inst op lhs rhs =>
      simp only [Value.mapLoads, evaluateValue, hread, hreads lhs List.mem_cons_self,
        hreads rhs (List.mem_cons_of_mem _ List.mem_cons_self)]
  | call inst target args isExternal saved =>
      simp only [Value.mapLoads, evaluateValue, callOut, hread]

/-- **THE SAME CONTENTS, THE SAME STEP**: a command does what it did, if
    everything that it loads now has the contents of what it loaded before. -/
theorem perform_mapLoads (hblocks : body'.blocks = body.blocks)
    (hlabels : body'.labels = body.labels)
    {config : Config} {command : Command}
    (hreads : ∀ access ∈ command.loads,
      body.read setting config.store (f access.loc) = body.read setting config.store access.loc) :
    body'.perform setting config (command.mapLoads f) = body.perform setting config command := by
  have hread := read_eq_of_locations hlocations setting
  have hgoTo : body'.goTo = body.goTo := by
    funext config label
    simp only [goTo, enter, stmtsOf, hblocks, hlabels]
  cases command with
  | save value dest =>
      simp only [Command.mapLoads, perform, evaluateValue_mapLoads hlocations hreads,
        write_eq_of_locations hlocations setting]
  | call target args isExternal saved => simp only [Command.mapLoads, perform, callOut, hread]
  | use loc => rfl
  | label place => rfl
  | jump target => simp only [Command.mapLoads, perform, hgoTo]
  | branch cond target =>
      simp only [Command.mapLoads, perform, hread, hgoTo, hreads cond List.mem_cons_self]
  | ret value =>
      cases value with
      | none => rfl
      | some value =>
          simp only [Command.mapLoads, Option.map_some, perform, hread,
            hreads value List.mem_cons_self]
  | exit code => rfl

end

end Body

namespace Copies

/-- Where a read goes through copies. -/
def through (copies : Copies) (loc : Loc) : Loc := (copies.source? loc).getD loc

/-! ## Redirected loads -/

section

variable {body : Body}

/-- Where an access can be redirected to, if it is a load. -/
def redirected (body : Body) (copies : Copies) (access : Access) :
    Checked (Option (Inst × Loc)) := do
  match ← body.record access.inst with
  | .load _ => return (copies.source? access.loc).map (Prod.mk access.inst)
  | _ => return none

/-- The loads among the reads that can be redirected. -/
theorem redirected_loads {accesses : List Access} (copies : Copies)
    (h : ∀ access ∈ accesses, body.records[access.inst.index]? = some (.load access.loc)) :
    accesses.filterMapM (redirected body copies) = .ok (accesses.filterMap fun access =>
      (copies.source? access.loc).map (Prod.mk access.inst)) := by
  refine Checked.filterMapM_eq fun access haccess => ?_
  rw [redirected, Body.record_eq (h access haccess)]
  rfl

/-- Arguments of calls are no loads. -/
theorem redirected_args {inst : Inst} {record : Record} (copies : Copies) (args : List Loc)
    (hrecord : body.records[inst.index]? = some record) (hnot : ∀ src, record ≠ .load src) :
    (args.map (Access.mk inst)).filterMapM (redirected body copies) = .ok [] := by
  rw [Checked.filterMapM_eq (g := fun _ => none)]
  · simp
  · intro access haccess
    obtain ⟨arg, -, rfl⟩ := List.mem_map.mp haccess
    rw [redirected, Body.record_eq hrecord]
    cases record with
    | load src => exact absurd rfl (hnot src)
    | _ => rfl

/-- The loads of a statement that can be redirected. -/
theorem redirects_eq {stmt : Inst} {command : Command} (h : body.command? stmt = some command)
    (copies : Copies) :
    redirects body copies stmt = .ok (command.loads.filterMap fun access =>
      (copies.source? access.loc).map (Prod.mk access.inst)) := by
  rw [redirects, Body.reads_eq h]
  show (command.reads stmt).filterMapM (redirected body copies) = _
  have h := Body.command?_eq_some.mp h
  cases command with
  | save value dest =>
      have hvalue := h.2
      cases value with
      | load src => exact redirected_loads copies (List.forall_mem_singleton.mpr hvalue)
      | param inst index => rfl
      | unary inst op operand =>
          exact redirected_loads copies (List.forall_mem_singleton.mpr hvalue.2)
      | binary inst op lhs rhs =>
          exact redirected_loads copies (List.forall_mem_cons.mpr
            ⟨hvalue.2.1, List.forall_mem_singleton.mpr hvalue.2.2⟩)
      | call inst target args isExternal saved => exact redirected_args copies args hvalue nofun
  | call target args isExternal saved => exact redirected_args copies args h nofun
  | use loc => exact redirected_args copies [loc] h nofun
  | branch cond target => exact redirected_loads copies (List.forall_mem_singleton.mpr h.2)
  | ret value =>
      cases value with
      | none => rfl
      | some value => exact redirected_loads copies (List.forall_mem_singleton.mpr h.2)
  | label place => rfl
  | jump target => rfl
  | exit code => rfl

/-- The records of a statement that are loads. -/
theorem mem_loads_of_record {stmt inst : Inst} {command : Command} {src : Loc}
    (h : body.command? stmt = some command) (hinst : inst ∈ command.owned ++ [stmt])
    (hrecord : body.records[inst.index]? = some (.load src)) : ⟨inst, src⟩ ∈ command.loads := by
  have h := Body.command?_eq_some.mp h
  -- the record is a load of this statement, and no other record of it is
  have hload : ∀ {access : Access}, body.records[access.inst.index]? = some (.load access.loc) →
      inst = access.inst → (⟨inst, src⟩ : Access) = access := by
    rintro access haccess rfl
    rw [haccess] at hrecord
    cases hrecord
    rfl
  have hother : ∀ {other : Inst} {record : Record}, body.records[other.index]? = some record →
      (∀ src, record ≠ .load src) → inst ≠ other := by
    rintro other record hother hnot rfl
    rw [hother] at hrecord
    exact hnot src (Option.some.inj hrecord)
  cases command with
  | save value dest =>
      rcases List.mem_append.mp hinst with hinst | hinst
      · have hvalue := h.2
        cases value with
        | load access =>
            rw [hload hvalue (List.mem_singleton.mp hinst)]
            exact List.mem_cons_self
        | param other index => exact absurd (List.mem_singleton.mp hinst) (hother hvalue nofun)
        | call other target args isExternal saved =>
            exact absurd (List.mem_singleton.mp hinst) (hother hvalue nofun)
        | unary other op operand =>
            rcases List.mem_cons.mp hinst with hinst | hinst
            · rw [hload hvalue.2 hinst]
              exact List.mem_cons_self
            · exact absurd (List.mem_singleton.mp hinst) (hother hvalue.1 nofun)
        | binary other op lhs rhs =>
            rcases List.mem_cons.mp hinst with hinst | hinst
            · rw [hload hvalue.2.1 hinst]
              exact List.mem_cons_self
            · rcases List.mem_cons.mp hinst with hinst | hinst
              · rw [hload hvalue.2.2 hinst]
                exact List.mem_cons_of_mem _ List.mem_cons_self
              · exact absurd (List.mem_singleton.mp hinst) (hother hvalue.1 nofun)
      · exact absurd (List.mem_singleton.mp hinst) (hother h.1 nofun)
  | branch cond target =>
      rcases List.mem_cons.mp hinst with hinst | hinst
      · rw [hload h.2 hinst]
        exact List.mem_cons_self
      · exact absurd (List.mem_singleton.mp hinst) (hother h.1 nofun)
  | ret value =>
      cases value with
      | none => exact absurd (List.mem_singleton.mp hinst) (hother h nofun)
      | some value =>
          rcases List.mem_cons.mp hinst with hinst | hinst
          · rw [hload h.2 hinst]
            exact List.mem_cons_self
          · exact absurd (List.mem_singleton.mp hinst) (hother h.1 nofun)
  | call | use | label | jump | exit =>
      exact absurd (List.mem_singleton.mp hinst) (hother h nofun)

/-- Loads are records of their statement. -/
theorem record_of_mem_loads {stmt : Inst} {command : Command} {access : Access}
    (h : body.command? stmt = some command) (haccess : access ∈ command.loads) :
    access.inst ∈ command.owned ++ [stmt] ∧
      body.records[access.inst.index]? = some (.load access.loc) := by
  have h := Body.command?_eq_some.mp h
  cases command with
  | save value dest =>
      have hvalue := h.2
      cases value with
      | load src =>
          rw [List.mem_singleton.mp haccess]
          exact ⟨List.mem_cons_self, hvalue⟩
      | unary inst op operand =>
          rw [List.mem_singleton.mp haccess]
          exact ⟨List.mem_cons_self, hvalue.2⟩
      | binary inst op lhs rhs =>
          rcases List.mem_cons.mp haccess with rfl | haccess
          · exact ⟨List.mem_cons_self, hvalue.2.1⟩
          · rw [List.mem_singleton.mp haccess]
            exact ⟨List.mem_cons_of_mem _ List.mem_cons_self, hvalue.2.2⟩
      | param | call => cases haccess
  | branch cond target =>
      rw [List.mem_singleton.mp haccess]
      exact ⟨List.mem_cons_self, h.2⟩
  | ret value =>
      cases value with
      | none => cases haccess
      | some value =>
          rw [List.mem_singleton.mp haccess]
          exact ⟨List.mem_cons_self, h.2⟩
  | call | use | label | jump | exit => cases haccess

/-! ## Carrying out redirections -/

/-- Makes loads read other locations, one after the other. -/
def redirectAll (body : Body) (pairs : List (Inst × Loc)) : Body :=
  pairs.foldl (fun body (load, src) => body.redirect load src) body

/-- Nothing but records changes. -/
theorem redirectAll_same (pairs : List (Inst × Loc)) (body : Body) :
    ∃ records, redirectAll body pairs = { body with records } := by
  induction pairs generalizing body with
  | nil => exact ⟨body.records, rfl⟩
  | cons pair pairs ih =>
      obtain ⟨load, src⟩ := pair
      obtain ⟨records, hrecords⟩ : ∃ records, body.redirect load src = { body with records } := by
        rw [Body.redirect]
        split
        · exact ⟨_, rfl⟩
        · exact ⟨_, rfl⟩
      obtain ⟨all, hall⟩ := ih { body with records }
      refine ⟨all, ?_⟩
      show redirectAll (body.redirect load src) pairs = _
      rw [hrecords]
      exact hall

theorem index_ne {a b : Inst} (h : a ≠ b) : a.index ≠ b.index := by
  intro heq
  obtain ⟨i⟩ := a
  obtain ⟨j⟩ := b
  exact h (congrArg Key.mk heq)

/-- To redirect a load changes no other record. -/
theorem records_redirect_ne {load inst : Inst} (h : load ≠ inst) (src : Loc) :
    (body.redirect load src).records[inst.index]? = body.records[inst.index]? := by
  rw [Body.redirect]
  split
  · exact Array.getElem?_setIfInBounds_ne (index_ne h)
  · rfl

/-- A redirected load reads the new location. -/
theorem records_redirect_load {inst : Inst} {old : Loc}
    (h : body.records[inst.index]? = some (.load old)) (src : Loc) :
    (body.redirect inst src).records[inst.index]? = some (.load src) := by
  rw [Body.redirect, h]
  exact Array.getElem?_setIfInBounds_self_of_lt (Body.lt_size h)

/-- Only loads are redirected. -/
theorem records_redirectAll_other {inst : Inst} {record : Record} (hnot : ∀ src, record ≠ .load src)
    (pairs : List (Inst × Loc)) (h : body.records[inst.index]? = some record) :
    (redirectAll body pairs).records[inst.index]? = some record := by
  induction pairs generalizing body with
  | nil => exact h
  | cons pair pairs ih =>
      obtain ⟨load, src⟩ := pair
      show (redirectAll (body.redirect load src) pairs).records[inst.index]? = some record
      refine ih ?_
      by_cases heq : load = inst
      · have hkept : body.redirect load src = body := by
          rw [Body.redirect, heq, h]
          cases record with
          | load src => exact absurd rfl (hnot src)
          | _ => rfl
        rw [hkept]
        exact h
      · rw [records_redirect_ne heq]
        exact h

/-- A load reads what it is redirected to, if it is. -/
theorem records_redirectAll_load {inst : Inst} {src : Loc} {pairs : List (Inst × Loc)}
    (hall : ∀ pair ∈ pairs, pair.1 = inst → pair.2 = src) {old : Loc}
    (h : body.records[inst.index]? = some (.load old)) :
    (redirectAll body pairs).records[inst.index]? =
      some (.load (if inst ∈ pairs.map Prod.fst then src else old)) := by
  -- by induction on the pairs: a pair is about this load, or leaves it alone
  induction pairs generalizing body old with
  | nil => exact h
  | cons pair pairs ih =>
      have hrest : ∀ pair ∈ pairs, pair.1 = inst → pair.2 = src :=
        fun other hother => hall other (List.mem_cons_of_mem _ hother)
      by_cases heq : pair.1 = inst
      · have hsrc := hall pair List.mem_cons_self heq
        have hload : (body.redirect pair.1 pair.2).records[inst.index]? = some (.load src) := by
          rw [heq, hsrc]
          exact records_redirect_load h src
        refine (ih hrest hload).trans ?_
        rw [ite_self, if_pos (List.mem_map.mpr ⟨pair, List.mem_cons_self, heq⟩)]
      · have hload : (body.redirect pair.1 pair.2).records[inst.index]? = some (.load old) := by
          rw [records_redirect_ne heq]
          exact h
        refine (ih hrest hload).trans ?_
        simp only [List.map_cons, List.mem_cons, Ne.symm heq, false_or]

/-! ## The copies at a point -/

/-- The copies known at a point: those known at the start of its block, taken
    over the statements in between. -/
def Ahead (body : Body) (solution : Solution Copies) (point : Point) (copies : Copies) : Prop :=
  ∃ before input, body.stmtsOf point.block = before ++ point.rest ∧
    solution.inputs[point.block]? = some input ∧
    before.foldlM (step body) input = .ok copies

/-- A load of a statement is redirected. -/
def Redirects (body : Body) (copies : Copies) (stmt : Inst) (pair : Inst × Loc) : Prop :=
  ∃ command access, body.command? stmt = some command ∧ access ∈ command.loads ∧
    access.inst = pair.1 ∧ copies.Has access.loc pair.2

/-- A statement stands at one place in a list without repetition. -/
theorem split_unique {stmt : Inst} {before before' after after' : List Inst}
    (hnodup : (before ++ stmt :: after).Nodup)
    (h : before ++ stmt :: after = before' ++ stmt :: after') : before = before' := by
  induction before generalizing before' with
  | nil =>
      cases before' with
      | nil => rfl
      | cons first before' =>
          injection h with hfirst hrest
          subst hfirst
          refine absurd ?_ (List.nodup_cons.mp hnodup).1
          rw [hrest]
          exact List.mem_append_right _ List.mem_cons_self
  | cons first before ih =>
      obtain ⟨hfirst, hnodup'⟩ := List.nodup_cons.mp hnodup
      cases before' with
      | nil =>
          injection h with hfirst' hrest
          subst hfirst'
          exact absurd (List.mem_append_right _ List.mem_cons_self) hfirst
      | cons first' before' =>
          injection h with hfirst' hrest
          rw [hfirst', ih hnodup' hrest]

section

variable {solution : Solution Copies} (wf : WellFormed body)
include wf

/-- There is one state in front of every statement. -/
theorem Ahead.unique {stmt : Inst} {block block' : Block} {rest rest' : List Inst}
    {copies copies' : Copies} (h : Ahead body solution ⟨block, stmt :: rest⟩ copies)
    (h' : Ahead body solution ⟨block', stmt :: rest'⟩ copies') : copies = copies' := by
  obtain ⟨before, input, hsplit, hinput, hsteps⟩ := h
  obtain ⟨before', input', hsplit', hinput', hsteps'⟩ := h'
  dsimp only at hsplit hinput hsplit' hinput'
  have hblock : block = block' := wf.block_unique
    (by rw [hsplit]; exact List.mem_append_right _ List.mem_cons_self)
    (by rw [hsplit']; exact List.mem_append_right _ List.mem_cons_self)
  subst hblock
  rw [hinput] at hinput'
  cases hinput'
  have hnodup := wf.stmtsOf_nodup block
  rw [hsplit] at hnodup hsplit'
  cases split_unique hnodup hsplit'
  rw [hsteps] at hsteps'
  exact Except.ok.inj hsteps'

/-- The loads of a run of statements that are redirected. -/
theorem redirectsIn_spec {stmts : List Inst} (hstmts : ∀ stmt ∈ stmts, stmt ∈ body.stmts)
    {copies : Copies} (hbound : Bound body copies) :
    ∃ pairs, redirectsIn body stmts copies = .ok pairs ∧
      ∀ pair, pair ∈ pairs ↔ ∃ before stmt after state, stmts = before ++ stmt :: after ∧
        before.foldlM (step body) copies = .ok state ∧ Redirects body state stmt pair := by
  -- by induction on the statements, for every state of the copies in front of them
  induction stmts generalizing copies with
  | nil =>
      refine ⟨[], rfl, fun pair => ⟨nofun, ?_⟩⟩
      rintro ⟨before, stmt, after, state, hsplit, -⟩
      cases before <;> cases hsplit
  | cons stmt stmts ih =>
      obtain ⟨command, hcommand, hvalid⟩ := wf.commands stmt (hstmts stmt List.mem_cons_self)
      obtain ⟨next, hstep, -⟩ := step_spec hbound hcommand hvalid
      obtain ⟨pairs, hpairs, hmem⟩ :=
        ih (fun other hother => hstmts other (List.mem_cons_of_mem _ hother))
          (hbound.step hcommand hvalid hstep)
      refine ⟨_, by
        rw [redirectsIn, redirects_eq hcommand, hstep]
        simp only [bind, Except.bind, hpairs]
        rfl, ?_⟩
      intro pair
      rw [List.mem_append, hmem]
      constructor
      · rintro (hpair | ⟨before, other, after, state, rfl, hsteps, hredirects⟩)
        · obtain ⟨access, haccess, hsource⟩ := List.mem_filterMap.mp hpair
          obtain ⟨src, hsrc, rfl⟩ := Option.map_eq_some_iff.mp hsource
          exact ⟨[], stmt, stmts, copies, rfl, rfl, command, access, hcommand, haccess, rfl, hsrc⟩
        · refine ⟨stmt :: before, other, after, state, rfl, ?_, hredirects⟩
          rw [List.foldlM_cons, hstep]
          exact hsteps
      · rintro ⟨before, other, after, state, hsplit, hsteps, hredirects⟩
        cases before with
        | nil =>
            cases hsplit
            cases hsteps
            obtain ⟨command', access, hcommand', haccess, hinst, hhas⟩ := hredirects
            rw [hcommand] at hcommand'
            cases hcommand'
            refine Or.inl (List.mem_filterMap.mpr ⟨access, haccess, ?_⟩)
            rw [show copies.source? access.loc = some pair.2 from hhas, hinst]
            rfl
        | cons first before =>
            injection hsplit with hfirst hsplit
            subst hfirst
            rw [List.foldlM_cons, hstep] at hsteps
            exact Or.inr ⟨before, other, after, state, hsplit, hsteps, hredirects⟩

/-- What is redirected in a whole body. -/
theorem redirects_spec {graph : FlowGraph} (hflow : graph.Of body)
    (hsettled : ∀ {block : Block}, block ∈ graph.blocks →
      Settled graph (analysis body) solution block)
    (hbound : Worklist.Satisfies (Bound body) solution) :
    ∃ lists, (body.blockKeys.mapM fun block => do
        redirectsIn body (body.stmtsOf block) (← solution.input block)) = Except.ok lists ∧
      ∀ pair, pair ∈ lists.flatten ↔ ∃ block stmt rest copies,
        Ahead body solution ⟨block, stmt :: rest⟩ copies ∧ Redirects body copies stmt pair := by
  -- block by block, the redirects are those of the points in the block
  have hblock : ∀ block ∈ body.blockKeys, ∃ pairs, (do
      redirectsIn body (body.stmtsOf block) (← solution.input block)) = Except.ok pairs ∧
      ∀ pair, pair ∈ pairs ↔ ∃ stmt rest copies,
        Ahead body solution ⟨block, stmt :: rest⟩ copies ∧ Redirects body copies stmt pair := by
    intro block hkey
    obtain ⟨output, hinput, -⟩ := hsettled (hflow.blocks ▸ hkey)
    obtain ⟨pairs, hpairs, hmem⟩ := redirectsIn_spec wf
      (fun stmt => Body.mem_stmts_of_stmtsOf) (hbound.1 hinput)
    refine ⟨pairs, by rw [Solution.input, hinput]; exact hpairs, fun pair => (hmem pair).trans ?_⟩
    constructor
    · rintro ⟨before, stmt, after, state, hsplit, hsteps, hredirects⟩
      exact ⟨stmt, after, state, ⟨before, _, hsplit, hinput, hsteps⟩, hredirects⟩
    · rintro ⟨stmt, rest, state, ⟨before, input, hsplit, hinput', hsteps⟩, hredirects⟩
      dsimp only at hinput'
      rw [hinput] at hinput'
      cases hinput'
      exact ⟨before, stmt, rest, state, hsplit, hsteps, hredirects⟩
  obtain ⟨lists, hlists⟩ := Checked.mapM_ok fun block hkey =>
    (hblock block hkey).imp fun _ hpairs => hpairs.1
  obtain ⟨hlength, hat⟩ := Checked.mapM_eq_ok hlists
  refine ⟨lists, hlists, fun pair => ?_⟩
  rw [List.mem_flatten]
  constructor
  · rintro ⟨pairs, hpairs, hpair⟩
    obtain ⟨i, hi, rfl⟩ := List.mem_iff_getElem.mp hpairs
    have hkey : body.blockKeys[i]? = some body.blockKeys[i] :=
      List.getElem?_eq_getElem (by rw [← hlength]; exact hi)
    obtain ⟨pairs, hpairs', hresult⟩ := hat hkey
    obtain ⟨pairs', hresult', hmem⟩ := hblock _ (List.mem_of_getElem? hkey)
    rw [hresult] at hresult'
    cases hresult'
    rw [List.getElem?_eq_getElem hi] at hpairs'
    cases hpairs'
    obtain ⟨stmt, rest, copies, hahead, hredirects⟩ := (hmem pair).mp hpair
    exact ⟨_, stmt, rest, copies, hahead, hredirects⟩
  · rintro ⟨block, stmt, rest, copies, hahead, hredirects⟩
    have hkey : block ∈ body.blockKeys := by
      obtain ⟨before, input, hsplit, -⟩ := hahead
      refine Body.mem_blockKeys.mpr (Nat.lt_of_not_le fun hle => ?_)
      dsimp only at hsplit
      rw [Body.stmtsOf, Array.getElem?_eq_none hle] at hsplit
      cases before <;> cases hsplit
    obtain ⟨i, hi, heq⟩ := List.mem_iff_getElem.mp hkey
    obtain ⟨pairs, hpairs, hresult⟩ := hat (show body.blockKeys[i]? = some block by
      rw [List.getElem?_eq_getElem hi, heq])
    obtain ⟨pairs', hresult', hmem⟩ := hblock block hkey
    rw [hresult] at hresult'
    cases hresult'
    exact ⟨pairs, List.mem_of_getElem? hpairs,
      (hmem pair).mpr ⟨stmt, rest, copies, hahead, hredirects⟩⟩

/-- **EVERY STATEMENT IS CHANGED BY THE COPIES IN FRONT OF IT**. -/
theorem command?_redirected {pairs : List (Inst × Loc)}
    (hpairs : ∀ pair, pair ∈ pairs ↔ ∃ block stmt rest copies,
      Ahead body solution ⟨block, stmt :: rest⟩ copies ∧ Redirects body copies stmt pair)
    {block : Block} {stmt : Inst} {rest : List Inst} {copies : Copies} {command : Command}
    (hahead : Ahead body solution ⟨block, stmt :: rest⟩ copies)
    (hcommand : body.command? stmt = some command) :
    (redirectAll body pairs).command? stmt = some (command.mapLoads copies.through) := by
  have hplaced : ∀ {block : Block} {stmt : Inst} {rest : List Inst} {copies : Copies},
      Ahead body solution ⟨block, stmt :: rest⟩ copies → stmt ∈ body.stmts := by
    rintro block stmt rest copies ⟨before, input, hsplit, -⟩
    have hmem : stmt ∈ body.stmtsOf block := by
      dsimp only at hsplit
      rw [hsplit]
      exact List.mem_append_right _ List.mem_cons_self
    exact Body.mem_stmts_of_stmtsOf hmem
  refine Body.command?_mapLoads hcommand fun inst hinst => ?_
  have hsize := Body.lt_size_of_mem_family hcommand hinst
  have hrecord := Array.getElem?_eq_getElem hsize
  rw [hrecord]
  generalize body.records[inst.index] = record at hrecord
  by_cases hload : ∃ src, record = .load src
  · obtain ⟨old, rfl⟩ := hload
    have haccess := mem_loads_of_record hcommand hinst hrecord
    -- a load belongs to one statement, so it is redirected to one place only
    have hmem : ∀ src, (inst, src) ∈ pairs ↔ copies.Has old src := by
      intro src
      rw [hpairs]
      constructor
      · rintro ⟨block', other, rest', copies', hahead', command', access, hcommand', hmem,
          heq, hhas⟩
        dsimp only at heq hhas
        obtain ⟨hfamily, hrecord'⟩ := record_of_mem_loads hcommand' hmem
        rw [heq] at hfamily hrecord'
        have hsame : other = stmt := wf.owned other (hplaced hahead') stmt (hplaced hahead) inst
          (by rw [Body.family_eq hcommand']; exact hfamily)
          (by rw [Body.family_eq hcommand]; exact hinst)
        subst hsame
        rw [hrecord] at hrecord'
        cases hrecord'
        rw [hahead.unique wf hahead']
        exact hhas
      · intro hhas
        exact ⟨block, stmt, rest, copies, hahead, command, ⟨inst, old⟩, hcommand, haccess, rfl,
          hhas⟩
    show _ = some (Record.load ((copies.source? old).getD old))
    cases hsource : copies.source? old with
    | none =>
        rw [@records_redirectAll_load _ inst old pairs ?_ old hrecord, ite_self]
        · rfl
        · rintro ⟨inst', src⟩ hpair rfl
          have hhas := (hmem src).mp hpair
          rw [Has] at hhas
          rw [source?, hhas] at hsource
          cases hsource
    | some src =>
        rw [@records_redirectAll_load _ inst src pairs ?_ old hrecord, if_pos]
        · rfl
        · exact List.mem_map.mpr ⟨(inst, src), (hmem src).mpr hsource, rfl⟩
        · rintro ⟨inst', src'⟩ hpair rfl
          exact ((hmem src').mp hpair).unique hsource
  · have hnot : ∀ src, record ≠ .load src := fun src heq => hload ⟨src, heq⟩
    rw [records_redirectAll_other hnot pairs hrecord]
    cases record with
    | load src => exact absurd rfl (hnot src)
    | _ => rfl

end

end

end Copies

end DecafBackend
