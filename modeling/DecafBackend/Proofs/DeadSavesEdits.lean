import DecafBackend.Optimize.DeadSaves
import DecafBackend.Proofs.Liveness

/-! # What deleting saves leaves of a body

    A deleted save leaves the call that it makes, or nothing.  The call's record
    belonged to the save alone, and a save does not turn control away, so what
    is left is well-formed and has the same flow graph.

    * `leftOf`, `sweep` — what is left of a statement, and of a body
    * `sweep_wellFormed`, `sweep_flow` — it is well-formed, with the same edges
    * `Idle`, `find_ok` — the saves that are found
    * `foldlM_delete` — deleting them one by one -/

namespace DecafBackend

namespace WellFormed

variable {body : Body} (wf : WellFormed body)
include wf

/-- Control can come to every statement of a block from the one in front of it. -/
theorem at_of_split {block : Block} {before rest : List Inst} {stmt : Inst}
    (hsplit : body.stmtsOf block = before ++ stmt :: rest) : body.At block (stmt :: rest) := by
  have hmem : stmt ∈ body.stmtsOf block := hsplit ▸ List.mem_append_right _ List.mem_cons_self
  obtain ⟨block', hlt, hmem'⟩ := Body.mem_stmts.mp (Body.mem_stmts_of_stmtsOf hmem)
  obtain rfl := wf.block_unique hmem hmem'
  refine ⟨hlt, before, hsplit, fun last command hlast hcommand => ?_⟩
  obtain ⟨front, rfl⟩ := List.getLast?_eq_some_iff.mp hlast
  have hsplit' : body.stmtsOf block = front ++ last :: (stmt :: rest) := by
    rw [hsplit, List.append_assoc]
    rfl
  cases hends : command.endsBlock with
  | true => cases wf.enders hsplit' hcommand hends
  | false => exact Command.isTerminator_eq_false hends

end WellFormed

/-- A block whose last statement does not end it leads to the next block. -/
theorem Body.successors_of_falls {body : Body} {block : Block}
    (h : ∀ last, (body.stmtsOf block).getLast? = some last →
      ∃ command, body.command? last = some command ∧ command.endsBlock = false) :
    body.successors block = .ok (body.next? block).toList := by
  rw [successors]
  cases hlast : (body.stmtsOf block).getLast? with
  | none => rfl
  | some last =>
      obtain ⟨command, hcommand, hfalls⟩ := h last hlast
      obtain ⟨record, hrecord, -, -, hends, -⟩ := record_command hcommand
      rw [hfalls] at hends
      simp only [record_eq hrecord, bind, Except.bind]
      cases record with
      | jump | branch | ret | exit => cases hends
      | load | param | unary | binary | call | save | use | label => rfl

namespace DeadSaves

variable {body : Body} {dead : List Inst}

/-! ## What is left -/

/-- What is left of a statement when some saves are deleted. -/
def leftOf (body : Body) (dead : List Inst) (stmt : Inst) : List Inst :=
  if dead.contains stmt then
    match body.command? stmt with
    | some (.save value _) => value.callInst?.toList
    | _ => [stmt]
  else [stmt]

/-- What is left of a body. -/
def sweep (body : Body) (dead : List Inst) : Body := body.mapStmts (List.flatMap (leftOf body dead))

/-- What is left of a statement is the statement, or the call of a save. -/
theorem leftOf_cases (body : Body) (dead : List Inst) (stmt : Inst) :
    leftOf body dead stmt = [stmt] ∨ ∃ value dest,
      body.command? stmt = some (.save value dest) ∧ stmt ∈ dead ∧
        leftOf body dead stmt = value.callInst?.toList := by
  rw [leftOf]
  by_cases hdead : dead.contains stmt = true
  · rw [if_pos hdead]
    split
    · next value dest hcommand =>
        exact Or.inr ⟨value, dest, hcommand, List.contains_iff_mem.mp hdead, rfl⟩
    · exact Or.inl rfl
  · rw [if_neg hdead]
    exact Or.inl rfl

/-- At most one statement is left. -/
theorem leftOf_unique {stmt a b : Inst} (ha : a ∈ leftOf body dead stmt)
    (hb : b ∈ leftOf body dead stmt) : a = b := by
  rcases leftOf_cases body dead stmt with hkept | ⟨value, dest, -, -, hcall⟩
  · rw [hkept, List.mem_singleton] at ha hb
    rw [ha, hb]
  · rw [hcall, Option.mem_toList] at ha hb
    exact Option.some.inj (ha.symm.trans hb)

/-- What ends its block is left as it is. -/
theorem leftOf_ender {stmt : Inst} {command : Command}
    (hcommand : body.command? stmt = some command)
    (hends : command.endsBlock = true) : leftOf body dead stmt = [stmt] := by
  rcases leftOf_cases body dead stmt with hkept | ⟨value, dest, hsave, -⟩
  · exact hkept
  · rw [hcommand] at hsave
    cases hsave
    cases hends

/-- The command that is left of a statement. -/
theorem command_left {stmt inst : Inst} {command : Command}
    (hcommand : body.command? stmt = some command) (hvalid : command.Valid body stmt)
    (hinst : inst ∈ leftOf body dead stmt) : ∃ left, body.command? inst = some left ∧
      left.Valid body inst ∧ (∀ owner ∈ left.owned ++ [inst], owner ∈ command.owned ++ [stmt]) ∧
      (inst = stmt ∨ left.endsBlock = false) := by
  rcases leftOf_cases body dead stmt with hkept | ⟨value, dest, hsave, -, hcall⟩
  · rw [hkept, List.mem_singleton] at hinst
    subst hinst
    exact ⟨command, hcommand, hvalid, fun _ h => h, Or.inl rfl⟩
  · rw [hcommand] at hsave
    cases hsave
    rw [hcall, Option.mem_toList] at hinst
    cases value with
    | call made target args isExternal saved =>
        cases hinst
        have hrecord : body.records[inst.index]? = some (.call target args isExternal saved) :=
          (Body.command?_eq_some.mp hcommand).2
        refine ⟨.call target args isExternal saved, Body.command?_eq_some.mpr hrecord, ?_, ?_,
          Or.inr rfl⟩
        · refine ⟨hvalid.reads, fun _ h => ?_, fun _ h => ?_⟩
          · cases h
          · cases h
        · intro owner howner
          exact List.mem_append_left _ howner
    | load | param | unary | binary => cases hinst

/-- The statements that are left of a block. -/
theorem stmtsOf_sweep (block : Block) :
    (sweep body dead).stmtsOf block = (body.stmtsOf block).flatMap (leftOf body dead) :=
  Body.stmtsOf_mapStmts rfl block

/-- The statements that are left of the body. -/
theorem stmts_sweep : (sweep body dead).stmts = body.stmts.flatMap (leftOf body dead) := by
  rw [sweep, Body.stmts_mapStmts, Body.stmts, List.flatMap_assoc]

/-- The deletion changes no record. -/
theorem command?_sweep (stmt : Inst) : (sweep body dead).command? stmt = body.command? stmt :=
  Body.command?_congr rfl

/-- Where a statement that is left comes from. -/
theorem flatMap_split {f : Inst → List Inst} {stmts before after : List Inst} {inst : Inst}
    (h : stmts.flatMap f = before ++ inst :: after) : ∃ front stmt rest early late,
      stmts = front ++ stmt :: rest ∧ f stmt = early ++ inst :: late ∧
        after = late ++ rest.flatMap f := by
  induction stmts generalizing before with
  | nil => cases before <;> cases h
  | cons first stmts ih =>
      -- the statement comes from the first one, or from one behind it
      have hlater : ∀ {before}, stmts.flatMap f = before ++ inst :: after →
          ∃ front stmt rest early late, first :: stmts = front ++ stmt :: rest ∧
            f stmt = early ++ inst :: late ∧ after = late ++ rest.flatMap f := by
        intro before hbefore
        obtain ⟨front, stmt, rest, early, late, rfl, hmem, hafter⟩ := ih hbefore
        exact ⟨first :: front, stmt, rest, early, late, rfl, hmem, hafter⟩
      rw [List.flatMap_cons, List.append_eq_append_iff] at h
      rcases h with ⟨skipped, -, hrest⟩ | ⟨late, hfirst, hrest⟩
      · exact hlater hrest
      · cases late with
        | nil => exact @hlater [] hrest.symm
        | cons left late =>
            injection hrest with hinst hafter
            subst hinst
            exact ⟨[], first, stmts, before, late, rfl, hfirst, hafter⟩

section

variable (wf : WellFormed body)
include wf

/-- What is left of a statement belongs to it. -/
theorem leftOf_family {stmt inst : Inst} (hstmt : stmt ∈ body.stmts)
    (hinst : inst ∈ leftOf body dead stmt) :
    (sweep body dead).family inst ⊆ body.family stmt := by
  obtain ⟨command, hcommand, hvalid⟩ := wf.commands stmt hstmt
  obtain ⟨left, hleft, -, hsub, -⟩ := command_left hcommand hvalid hinst
  rw [Body.family_eq hcommand, Body.family_eq ((command?_sweep inst).trans hleft)]
  exact hsub

/-- **WHAT IS LEFT IS WELL-FORMED**. -/
theorem sweep_wellFormed : WellFormed (sweep body dead) := by
  -- a statement that is left comes from one of the body and is of its family
  have hfrom : ∀ {inst}, inst ∈ (sweep body dead).stmts →
      ∃ stmt ∈ body.stmts, inst ∈ leftOf body dead stmt := by
    intro inst hinst
    rw [stmts_sweep] at hinst
    exact List.mem_flatMap.mp hinst
  have hfamily : ∀ {stmt inst}, stmt ∈ body.stmts → inst ∈ leftOf body dead stmt →
      inst ∈ body.family stmt := fun hstmt hinst =>
    leftOf_family wf hstmt hinst (Body.mem_family_self _ _)
  have hsize : (sweep body dead).blocks.size = body.blocks.size := Body.size_mapStmts _
  refine ⟨?_, ?_, ?_, ?_, ?_, wf.interned⟩
  · intro inst hinst
    obtain ⟨stmt, hstmt, hleft⟩ := hfrom hinst
    obtain ⟨command, hcommand, hvalid⟩ := wf.commands stmt hstmt
    obtain ⟨left, hcommand', hvalid', -⟩ := command_left hcommand hvalid hleft
    refine ⟨left, (command?_sweep inst).trans hcommand', hvalid'.reads, hvalid'.dest, ?_⟩
    rw [hsize]
    exact hvalid'.target
  · rw [stmts_sweep, List.Nodup, List.pairwise_flatMap]
    constructor
    · intro stmt _
      rcases leftOf_cases body dead stmt with hkept | ⟨value, dest, -, -, hcall⟩
      · rw [hkept]
        exact List.pairwise_singleton _ _
      · rw [hcall]
        cases value.callInst? with
        | none => exact List.Pairwise.nil
        | some call => exact List.pairwise_singleton _ _
    · refine wf.distinct.imp_of_mem ?_
      rintro stmt other hstmt hother hne inst hinst _ hinst' rfl
      exact hne (wf.owned stmt hstmt other hother inst (hfamily hstmt hinst)
        (hfamily hother hinst'))
  · intro a ha b hb inst hinst hinst'
    obtain ⟨stmt, hstmt, hleft⟩ := hfrom ha
    obtain ⟨other, hother, hleft'⟩ := hfrom hb
    obtain rfl := wf.owned stmt hstmt other hother inst (leftOf_family wf hstmt hleft hinst)
      (leftOf_family wf hother hleft' hinst')
    exact leftOf_unique hleft hleft'
  -- a jump that is left is the statement itself, so nothing of its block follows
  · intro block before inst after left hsplit hleft hends
    rw [stmtsOf_sweep] at hsplit
    rw [command?_sweep] at hleft
    obtain ⟨front, stmt, rest, early, late, hstmts, hfrom, hafter⟩ := flatMap_split hsplit
    have hinst : inst ∈ leftOf body dead stmt := hfrom ▸ List.mem_append_right _ List.mem_cons_self
    have hmem : stmt ∈ body.stmtsOf block := hstmts ▸ List.mem_append_right _ List.mem_cons_self
    obtain ⟨command, hcommand, hvalid⟩ := wf.command_of_mem hmem
    obtain ⟨left', hleft', -, -, hsame⟩ := command_left hcommand hvalid hinst
    rw [hleft] at hleft'
    cases hleft'
    rcases hsame with rfl | hfalls
    · rw [hleft] at hcommand
      cases hcommand
      rw [leftOf_ender hleft hends] at hfrom
      have hlate : late = [] := by
        cases early with
        | nil => exact (List.cons.inj hfrom).2.symm
        | cons first early => cases early <;> cases hfrom
      rw [hafter, hlate, wf.enders hstmts hleft hends]
      rfl
    · rw [hends] at hfalls
      cases hfalls
  · obtain ⟨stmt, command, hlast, hcommand, hterminator⟩ := wf.ending
    refine ⟨stmt, command, ?_, (command?_sweep stmt).trans hcommand, hterminator⟩
    have hends := Command.endsBlock_of_isTerminator hterminator
    obtain ⟨basic, hbasic, hlast⟩ := Option.bind_eq_some_iff.mp hlast
    obtain ⟨front, hfront⟩ := List.getLast?_eq_some_iff.mp hlast
    rw [Body.lastStmt?, sweep, Body.mapStmts, Array.back?_map, hbasic]
    show (basic.stmts.flatMap (leftOf body dead)).getLast? = some stmt
    rw [hfront, List.flatMap_append, List.flatMap_singleton, leftOf_ender hcommand hends,
      List.getLast?_concat]

/-- The edges do not change: saves let control through. -/
theorem successors_sweep (block : Block) :
    (sweep body dead).successors block = body.successors block := by
  have hnext : (sweep body dead).next? block = body.next? block := by
    rw [Body.next?, Body.next?, show (sweep body dead).blocks.size = body.blocks.size from
      Body.size_mapStmts _]
  cases hlast : (body.stmtsOf block).getLast? with
  | none =>
      rw [Body.successors, Body.successors, hnext, hlast, stmtsOf_sweep,
        List.getLast?_eq_none_iff.mp hlast]
      rfl
  | some last =>
      obtain ⟨front, hfront⟩ := List.getLast?_eq_some_iff.mp hlast
      obtain ⟨command, hcommand, hvalid⟩ := wf.command_of_mem (List.mem_of_getLast? hlast)
      cases hends : command.endsBlock with
      | true =>
          rw [Body.successors, Body.successors, hnext, hlast, stmtsOf_sweep, hfront,
            List.flatMap_append, List.flatMap_singleton, leftOf_ender hcommand hends,
            List.getLast?_concat]
          rfl
      | false =>
          -- no statement ends the block, so no statement that is left does
          have hnone : ∀ stmt ∈ body.stmtsOf block, ∀ command, body.command? stmt = some command →
              command.endsBlock = false := by
            intro stmt hstmt other hother
            cases hends' : other.endsBlock with
            | false => rfl
            | true =>
                obtain ⟨before, after, hsplit⟩ := List.append_of_mem hstmt
                have hafter := wf.enders hsplit hother hends'
                rw [hsplit, hafter, List.getLast?_concat] at hlast
                cases hlast
                rw [hcommand] at hother
                cases hother
                rw [hends] at hends'
                cases hends'
          have hold : body.successors block = .ok (body.next? block).toList := by
            refine Body.successors_of_falls fun other hother => ?_
            have hmem := List.mem_of_getLast? hother
            obtain ⟨command', hcommand', -⟩ := wf.command_of_mem hmem
            exact ⟨command', hcommand', hnone other hmem command' hcommand'⟩
          rw [hold, ← hnext]
          refine Body.successors_of_falls fun other hother => ?_
          rw [stmtsOf_sweep] at hother
          obtain ⟨stmt, hstmt, hleft⟩ := List.mem_flatMap.mp (List.mem_of_getLast? hother)
          obtain ⟨command', hcommand', hvalid'⟩ := wf.command_of_mem hstmt
          obtain ⟨left, hcommandLeft, -, -, hsame⟩ := command_left hcommand' hvalid' hleft
          refine ⟨left, (command?_sweep other).trans hcommandLeft, ?_⟩
          rcases hsame with rfl | hfalls
          · exact hnone other hstmt left hcommandLeft
          · exact hfalls

/-- The flow graph is one of what is left. -/
theorem sweep_flow {graph : FlowGraph} (hflow : graph.Of body) : graph.Of (sweep body dead) := by
  have hsize : (sweep body dead).blocks.size = body.blocks.size := Body.size_mapStmts _
  refine ⟨?_, fun {block} hlt => ?_⟩
  · rw [hflow.blocks, Body.blockKeys, Body.blockKeys, hsize]
  · rw [successors_sweep wf block]
    exact hflow.successors (hsize ▸ hlt)

/-! ## Saves that do nothing -/

omit wf in
/-- Nothing reads what a save stores, or it stores what is there. -/
def Idle (body : Body) (stmt : Inst) : Prop :=
  ∃ value dest, body.command? stmt = some (.save value dest) ∧ body.tracks dest = true ∧
    ((∀ block rest, body.At block (stmt :: rest) → ∀ access, access.loc = dest →
        ¬ body.Live access ⟨block, rest⟩) ∨
      ∃ inst, value = .load ⟨inst, dest⟩)

omit wf in
/-- Whether a command copies a variable or temporary to itself. -/
def copiesSelf (body : Body) : Command → Bool
  | .save (.load src) dest => src.loc = dest && body.tracks dest
  | _ => false

omit wf in
/-- The test for copies of a location to itself succeeds. -/
theorem isSelfCopy_eq {stmt : Inst} {command : Command}
    (hcommand : body.command? stmt = some command) (hvalid : command.Valid body stmt) :
    isSelfCopy body stmt = .ok (copiesSelf body command) := by
  rw [isSelfCopy]
  have hparts := Body.command?_eq_some.mp hcommand
  cases command with
  | save value dest =>
      simp only [Body.record_eq hparts.1, bind, Except.bind]
      have hvalue := hparts.2
      cases value with
      | load src =>
          rw [Value.inst, Body.record_eq hvalue]
          dsimp only
          by_cases heq : src.loc = dest
          · have hlt := hvalid.reads src List.mem_cons_self
            rw [if_pos heq, Body.isTracked_eq (heq ▸ hlt)]
            simp [copiesSelf, heq]
          · rw [if_neg heq]
            simp [copiesSelf, heq, pure, Except.pure]
      | param inst index => rw [Value.inst, Body.record_eq hvalue]; rfl
      | unary inst op operand => rw [Value.inst, Body.record_eq hvalue.1]; rfl
      | binary inst op lhs rhs => rw [Value.inst, Body.record_eq hvalue.1]; rfl
      | call inst target args isExternal saved => rw [Value.inst, Body.record_eq hvalue]; rfl
  | branch cond target => rw [Body.record_eq hparts.1]; rfl
  | ret value =>
      cases value with
      | none => rw [Body.record_eq hparts]; rfl
      | some value => rw [Body.record_eq hparts.1]; rfl
  | call | use | label | jump | exit => rw [Body.record_eq hparts]; rfl

/-- What is found does nothing. -/
theorem find_ok {graph : FlowGraph} {liveness : Liveness} (h : liveness.Computed body graph) :
    ∃ dead, find body liveness = .ok dead ∧ dead.Nodup ∧
      ∀ stmt ∈ dead, stmt ∈ body.stmts ∧ Idle body stmt := by
  have htests : ∀ stmt ∈ body.stmts, ∃ found,
      (if liveness.isDead stmt then return true else isSelfCopy body stmt) = Except.ok found := by
    intro stmt hstmt
    obtain ⟨command, hcommand, hvalid⟩ := wf.commands stmt hstmt
    cases liveness.isDead stmt with
    | true => exact ⟨true, rfl⟩
    | false => exact ⟨_, isSelfCopy_eq hcommand hvalid⟩
  obtain ⟨test, htest, hfound⟩ := Checked.filterM_ok htests
  refine ⟨body.stmts.filter test, hfound, wf.distinct.filter test, fun stmt hstmt => ?_⟩
  obtain ⟨hstmt, hpassed⟩ := List.mem_filter.mp hstmt
  refine ⟨hstmt, ?_⟩
  obtain ⟨command, hcommand, hvalid⟩ := wf.commands stmt hstmt
  have hresult := htest stmt hstmt
  rw [hpassed] at hresult
  cases hdead : liveness.isDead stmt with
  -- a dead save writes a tracked location that is not read behind it
  | true =>
      obtain ⟨block, -, hmem⟩ := Body.mem_stmts.mp hstmt
      obtain ⟨before, rest, hsplit⟩ := List.append_of_mem hmem
      obtain ⟨dest, hdest, -⟩ := h.not_live_of_isDead wf (wf.at_of_split hsplit) hcommand hdead
      obtain ⟨hdest?, htracks⟩ := Body.trackedDest?_eq_some.mp hdest
      obtain ⟨value, rfl⟩ := Command.eq_save hdest?
      refine ⟨value, dest, hcommand, htracks, Or.inl fun block rest hat => ?_⟩
      obtain ⟨dest', hdest', hnot⟩ := h.not_live_of_isDead wf hat hcommand hdead
      rw [hdest] at hdest'
      cases hdest'
      exact hnot
  | false =>
      rw [hdead, if_neg Bool.false_ne_true, isSelfCopy_eq hcommand hvalid] at hresult
      have hself : copiesSelf body command = true := Except.ok.inj hresult
      unfold copiesSelf at hself
      split at hself
      · next src dest =>
          obtain ⟨heq, htracks⟩ := Bool.and_eq_true_iff.mp hself
          obtain rfl := of_decide_eq_true heq
          exact ⟨_, _, hcommand, htracks, Or.inr ⟨src.inst, rfl⟩⟩
      · cases hself

/-! ## Deleting saves -/

omit wf in
/-- A change that goes over lists goes over what each statement gives. -/
theorem flatMap_distrib {change : List Inst → List Inst} (hnil : change [] = [])
    (happend : ∀ a b, change (a ++ b) = change a ++ change b) (f : Inst → List Inst)
    (stmts : List Inst) : change (stmts.flatMap f) = stmts.flatMap fun stmt => change (f stmt) := by
  induction stmts with
  | nil => exact hnil
  | cons stmt stmts ih => rw [List.flatMap_cons, List.flatMap_cons, happend, ih]

/-- One more save is deleted, if nothing but the save changes. -/
theorem sweep_mapStmts {change : List Inst → List Inst} (hnil : change [] = [])
    (happend : ∀ a b, change (a ++ b) = change a ++ change b) {done : List Inst} {save : Inst}
    {value : Value} {dest : Loc} (hsave : save ∈ body.stmts) (hnew : save ∉ done)
    (hcommand : body.command? save = some (.save value dest))
    (hchange : change [save] = value.callInst?.toList)
    (hkeep : ∀ stmts : List Inst, save ∉ stmts → change stmts = stmts) :
    (sweep body done).mapStmts change = sweep body (done ++ [save]) := by
  have hleft : ∀ stmt ∈ body.stmts,
      change (leftOf body done stmt) = leftOf body (done ++ [save]) stmt := by
    intro stmt hstmt
    by_cases heq : stmt = save
    · subst heq
      have hold : ¬ done.contains stmt = true := fun hmem => hnew (List.contains_iff_mem.mp hmem)
      have hin : (done ++ [stmt]).contains stmt = true :=
        List.contains_iff_mem.mpr (List.mem_append_right _ List.mem_cons_self)
      rw [leftOf, if_neg hold, hchange, leftOf, if_pos hin, hcommand]
    · have hmem : (done ++ [save]).contains stmt = done.contains stmt := by
        rw [Bool.eq_iff_iff, List.contains_iff_mem, List.contains_iff_mem, List.mem_append,
          List.mem_singleton]
        exact or_iff_left heq
      have hsame : leftOf body (done ++ [save]) stmt = leftOf body done stmt := by
        rw [leftOf, leftOf]
        simp only [hmem]
      rw [hsame]
      -- the save belongs to no other statement
      refine hkeep _ fun hin => heq (wf.owned stmt hstmt save hsave save ?_
        (Body.mem_family_self _ _))
      exact leftOf_family wf hstmt hin (Body.mem_family_self _ _)
  rw [sweep, sweep, Body.mapStmts, Body.mapStmts, Body.mapStmts, Array.map_map]
  congr 1
  refine Array.map_congr_left fun basic hbasic => ?_
  show ({ basic with stmts := _ } : BasicBlock) = { basic with stmts := _ }
  congr 1
  rw [flatMap_distrib hnil happend]
  refine List.flatMap_congr fun stmt hstmt => hleft stmt ?_
  exact List.mem_flatMap.mpr ⟨basic, Array.mem_toList_iff.mpr hbasic, hstmt⟩

omit wf in
/-- To remove a statement takes it out of its block. -/
theorem remove_eq_ok {inst : Inst} {after : Body} (h : body.remove inst = .ok after) :
    after = body.mapStmts fun stmts => stmts.filter (· ≠ inst) := by
  rw [Body.remove] at h
  split at h
  · exact (Except.ok.inj h).symm
  · cases h

omit wf in
/-- To replace a statement puts the new one behind it and takes it out. -/
theorem replace_eq_ok {old new : Inst} {after : Body} (h : body.replace old new = .ok after) :
    after = body.mapStmts fun stmts => (Body.putAfter new old stmts).filter (· ≠ old) := by
  rw [Body.replace] at h
  obtain ⟨middle, hmiddle, h⟩ := Checked.bind_eq_ok h
  rw [Body.insertAfter] at hmiddle
  obtain ⟨-, -, hmiddle⟩ := Checked.bind_eq_ok hmiddle
  cases hmiddle
  rw [remove_eq_ok h, Body.mapStmts, Body.mapStmts, Body.mapStmts, Array.map_map]
  rfl

omit wf in
/-- A statement that is not there is not taken out. -/
theorem filter_ne_eq {save : Inst} {stmts : List Inst} (h : save ∉ stmts) :
    stmts.filter (· ≠ save) = stmts :=
  List.filter_eq_self.mpr fun _ hmem => decide_eq_true fun heq => h (heq ▸ hmem)

/-- One more save is deleted; its call stays. -/
theorem delete_eq {done : List Inst} {save : Inst} {after : Body} (hsave : save ∈ body.stmts)
    (hnew : save ∉ done) (hidle : Idle body save)
    (h : delete (sweep body done) save = .ok after) : after = sweep body (done ++ [save]) := by
  obtain ⟨value, dest, hcommand, -⟩ := hidle
  have hparts := Body.command?_eq_some.mp hcommand
  have hrecord : ∀ {inst : Inst} {record : Record}, body.records[inst.index]? = some record →
      (sweep body done).record inst = .ok record := Body.record_eq
  rw [delete, hrecord hparts.1] at h
  simp only [bind, Except.bind] at h
  -- a save that makes no call is taken out
  have hremove : value.callInst? = none → (sweep body done).remove save = .ok after →
      after = sweep body (done ++ [save]) := by
    intro hnone hremove
    rw [remove_eq_ok hremove]
    refine sweep_mapStmts wf rfl List.filter_append hsave hnew hcommand ?_
      fun stmts hstmts => filter_ne_eq hstmts
    rw [hnone]
    exact List.filter_cons_of_neg (by simp)
  have hvalue := hparts.2
  cases value with
  | call inst target args isExternal saved =>
      rw [Value.inst, hrecord hvalue] at h
      rw [replace_eq_ok h]
      have hne : inst ≠ save := by
        rintro rfl
        have hsame := hparts.1
        rw [hvalue] at hsame
        cases hsame
      refine sweep_mapStmts wf rfl (fun a b => ?_) hsave hnew hcommand ?_ fun stmts hstmts => ?_
      · rw [Body.putAfter, List.flatMap_append, List.filter_append]
      · simp [Body.putAfter, Value.callInst?, hne]
      · rw [Body.putAfter_of_not_mem hstmts, filter_ne_eq hstmts]
  | load src => rw [Value.inst, hrecord hvalue] at h; exact hremove rfl h
  | param inst index => rw [Value.inst, hrecord hvalue] at h; exact hremove rfl h
  | unary inst op operand => rw [Value.inst, hrecord hvalue.1] at h; exact hremove rfl h
  | binary inst op lhs rhs => rw [Value.inst, hrecord hvalue.1] at h; exact hremove rfl h

/-- **THE SAVES ARE DELETED** one by one, and the rest stays. -/
theorem foldlM_delete {done dead : List Inst} {after : Body} (hnodup : (done ++ dead).Nodup)
    (hdead : ∀ stmt ∈ dead, stmt ∈ body.stmts ∧ Idle body stmt)
    (h : dead.foldlM delete (sweep body done) = .ok after) : after = sweep body (done ++ dead) := by
  induction dead generalizing done with
  | nil =>
      cases h
      rw [List.append_nil]
  | cons save dead ih =>
      rw [List.foldlM_cons] at h
      obtain ⟨next, hnext, h⟩ := Checked.bind_eq_ok h
      obtain ⟨hsave, hidle⟩ := hdead save List.mem_cons_self
      have hnew : save ∉ done := fun hmem =>
        (List.nodup_append.mp hnodup).2.2 save hmem save List.mem_cons_self rfl
      rw [delete_eq wf hsave hnew hidle hnext] at h
      have hassoc : done ++ save :: dead = (done ++ [save]) ++ dead := by
        rw [List.append_assoc]
        rfl
      rw [hassoc] at hnodup ⊢
      exact ih hnodup (fun stmt hstmt => hdead stmt (List.mem_cons_of_mem _ hstmt)) h

omit wf in
/-- Without deletions the body stays as it is. -/
theorem sweep_nil : sweep body [] = body := by
  have hid : List.flatMap (leftOf body []) = id := by
    funext stmts
    exact List.flatMap_singleton' stmts
  rw [sweep, hid, Body.mapStmts]
  simp

end

end DeadSaves

end DecafBackend
