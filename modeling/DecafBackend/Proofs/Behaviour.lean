import DecafBackend.IR.Operator

/-! # Behaviours

    What can be seen of a run from outside: the calls it makes, and how it
    ends.  Calls are answered by an environment, which may look at all calls
    made so far; a callee may change the fields, and it may not come back.

    * `Arithmetic` — what the operators compute; only the commutativity of the
      operators that claim it is ever relied on
    * `Environment`, `Ending` — calls and their answers, and ends of runs
    * `Behaviour.Same` — two behaviours with the same endings and the same
      calls, and so both of them endless or neither
    * `System` — runs step by step
    * `Behaviour.same_of_forward`, `System.same_of_simulation` — from single
      steps to whole runs -/

namespace DecafBackend

/-- The contents of a location. -/
abbrev Word := Int64

/-- A truth value as a word. -/
def truth (b : Bool) : Word := if b then 1 else 0

/-- The values of the operators on words; without a value there is a trap.
    Division rounds towards zero, and traps at a zero divisor and where the
    quotient is too large. -/
def BinaryOp.apply (op : BinaryOp) (a b : Word) : Option Word :=
  match op with
  | .add => some (a + b)
  | .sub => some (a - b)
  | .mul => some (a * b)
  | .div => if b = 0 ∨ (a = Int64.minValue ∧ b = -1) then none else some (a / b)
  | .mod => if b = 0 ∨ (a = Int64.minValue ∧ b = -1) then none else some (a % b)
  | .eq => some (truth (a = b))
  | .ne => some (truth (a ≠ b))
  | .lt => some (truth (a < b))
  | .le => some (truth (a ≤ b))
  | .gt => some (truth (b < a))
  | .ge => some (truth (b ≤ a))

/-- The values of the operators with one operand. -/
def UnaryOp.apply (op : UnaryOp) (a : Word) : Word :=
  match op with
  | .neg => -a
  | .not => truth (a = 0)

/-- A way to compute: a value or a trap for every operator and operands. -/
structure Arithmetic where
  /-- The value of an operator, if it does not trap. -/
  apply : BinaryOp → Word → Word → Option Word
  /-- The order of operands does not matter where it should not. -/
  comm : ∀ op a b, op.isCommutative = true → apply op a b = apply op b a

namespace Arithmetic

/-- The arithmetic of the operators. -/
def standard : Arithmetic where
  apply := BinaryOp.apply
  comm op a b h := by
    cases op with
    | add => exact congrArg some (Int64.add_comm a b)
    | mul => exact congrArg some (Int64.mul_comm a b)
    | eq => exact congrArg (fun p => some (truth p)) (decide_eq_decide.mpr eq_comm)
    | ne => exact congrArg (fun p => some (truth p)) (decide_eq_decide.mpr ne_comm)
    | sub | div | mod | lt | le | gt | ge => cases h

/-- The same arithmetic with zero in place of every trap. -/
def quiet : Arithmetic where
  apply op a b := some ((op.apply a b).getD 0)
  comm op a b h := by
    have hcomm : op.apply a b = op.apply b a := standard.comm op a b h
    rw [hcomm]

end Arithmetic

/-! ## Calls and endings -/

/-- The values of the fields, by name. -/
abbrev Globals := String → Word

/-- A call as the callee sees it. -/
structure CallEvent where
  /-- The callee. -/
  target : String
  /-- The values of the arguments. -/
  args : List Word
  /-- The fields when the call is made. -/
  globals : Globals

/-- How a process ends, other than by a return. -/
inductive Abort
  /-- With an exit code. -/
  | exit (code : Int32)
  /-- By a trap. -/
  | trap
  /-- Never: a callee does not come back. -/
  | hang

/-- The answer to a call: the fields as the callee leaves them, and its
    result unless it does not come back. -/
structure Reply where
  /-- The fields after the call. -/
  globals : Globals
  /-- The result. -/
  result : Except Abort Word

/-- What answers calls.  It sees all calls made so far, and the one to answer
    comes first. -/
abbrev Environment := List CallEvent → Reply

/-- How a run ends. -/
inductive Outcome
  /-- With a return, of a value or of none. -/
  | returned (value : Option Word)
  /-- Without a return. -/
  | aborted (abort : Abort)
  /-- Nowhere: something was read that was never written. -/
  | stuck

/-- The end of a run. -/
structure Ending where
  /-- How the run ends. -/
  outcome : Outcome
  /-- The fields at the end. -/
  globals : Globals
  /-- All calls of the run, the last one first. -/
  calls : List CallEvent

/-! ## Behaviours -/

/-- What was seen of a run up to some time. -/
structure Observation where
  /-- The calls so far, the last one first. -/
  calls : List CallEvent
  /-- The end, if the run has ended. -/
  ending : Option Ending

/-- What is seen of a run as time goes on. -/
abbrev Behaviour := Nat → Observation

namespace Behaviour

/-- The run comes to an end. -/
def Ends (behaviour : Behaviour) (ending : Ending) : Prop :=
  ∃ n, (behaviour n).ending = some ending

/-- The run makes some calls, among the first that it makes. -/
def Makes (behaviour : Behaviour) (calls : List CallEvent) : Prop :=
  ∃ n, calls <:+ (behaviour n).calls

/-- Two runs that cannot be told apart: they end alike or are both endless,
    and they make the same calls. -/
structure Same (a b : Behaviour) : Prop where
  /-- The same ends. -/
  ends : ∀ ending, a.Ends ending ↔ b.Ends ending
  /-- The same calls. -/
  makes : ∀ calls, a.Makes calls ↔ b.Makes calls

/-- A behaviour is the same as itself. -/
theorem Same.refl (a : Behaviour) : Same a a := ⟨fun _ => Iff.rfl, fun _ => Iff.rfl⟩

/-- Being the same goes both ways. -/
theorem Same.symm {a b : Behaviour} (h : Same a b) : Same b a :=
  ⟨fun e => (h.ends e).symm, fun c => (h.makes c).symm⟩

/-- Behaviours that are the same as one are the same. -/
theorem Same.trans {a b c : Behaviour} (h₁ : Same a b) (h₂ : Same b c) : Same a c :=
  ⟨fun e => (h₁.ends e).trans (h₂.ends e), fun k => (h₁.makes k).trans (h₂.makes k)⟩

end Behaviour

/-! ## Systems -/

/-- What a step leads to. -/
inductive Progress (σ : Type)
  /-- The run goes on from a state. -/
  | going (state : σ)
  /-- The run has ended. -/
  | ended (ending : Ending)

/-- A deterministic machine whose states remember the calls made so far. -/
structure System (σ : Type) where
  /-- One step. -/
  step : σ → Progress σ
  /-- The calls made so far, the last one first. -/
  calls : σ → List CallEvent
  /-- No step forgets a call. -/
  calls_going : ∀ {s s'}, step s = .going s' → calls s <:+ calls s'
  /-- Nor does the last step. -/
  calls_ended : ∀ {s e}, step s = .ended e → calls s <:+ e.calls

namespace System

variable {σ τ : Type} (sys : System σ)

/-- Takes some number of steps, or fewer if the run ends. -/
def run : Nat → σ → Progress σ
  | 0, s => .going s
  | n + 1, s =>
    match sys.step s with
    | .going s' => run n s'
    | .ended e => .ended e

/-- What is seen after some number of steps. -/
def behaviour (start : σ) : Behaviour := fun n =>
  match sys.run n start with
  | .going s => ⟨sys.calls s, none⟩
  | .ended e => ⟨e.calls, some e⟩

variable {sys}

/-- No step leads nowhere. -/
@[simp] theorem run_zero (s : σ) : sys.run 0 s = .going s := rfl

/-- A run goes on from where its first step leads. -/
theorem run_succ_going {s s' : σ} (h : sys.step s = .going s') (n : Nat) :
    sys.run (n + 1) s = sys.run n s' := by
  rw [run, h]

/-- A run that ends at its first step has ended. -/
theorem run_succ_ended {s : σ} {e : Ending} (h : sys.step s = .ended e) (n : Nat) :
    sys.run (n + 1) s = .ended e := by
  rw [run, h]

/-- A run of one step is that step. -/
theorem run_one (s : σ) : sys.run 1 s = sys.step s := by
  rw [run]
  cases sys.step s <;> rfl

/-- Runs compose. -/
theorem run_add {s s' : σ} {m : Nat} (h : sys.run m s = .going s') (n : Nat) :
    sys.run (m + n) s = sys.run n s' := by
  induction m generalizing s with
  | zero =>
      cases h
      rw [Nat.zero_add]
  | succ m ih =>
      rw [Nat.succ_add]
      cases hs : sys.step s with
      | going t =>
          rw [run_succ_going hs] at h
          rw [run_succ_going hs]
          exact ih h
      | ended e =>
          rw [run_succ_ended hs] at h
          cases h

/-- A run that has ended stays as it is. -/
theorem run_ended_add {s : σ} {e : Ending} {m : Nat} (h : sys.run m s = .ended e) (n : Nat) :
    sys.run (m + n) s = .ended e := by
  induction m generalizing s with
  | zero => cases h
  | succ m ih =>
      rw [Nat.succ_add]
      cases hs : sys.step s with
      | going t =>
          rw [run_succ_going hs] at h
          rw [run_succ_going hs]
          exact ih h
      | ended e' =>
          rw [run_succ_ended hs] at h
          rw [run_succ_ended hs]
          exact h

/-- A run has at most one end. -/
theorem ended_unique {s : σ} {e e' : Ending} {m n : Nat} (h : sys.run m s = .ended e)
    (h' : sys.run n s = .ended e') : e = e' := by
  have h₁ := run_ended_add h n
  have h₂ := run_ended_add h' m
  rw [Nat.add_comm, h₂] at h₁
  cases h₁
  rfl

/-- A run is still going before a time at which it is going. -/
theorem not_ended_of_going {s s' : σ} {e : Ending} {m n : Nat} (hmn : m ≤ n)
    (h : sys.run n s = .going s') : sys.run m s ≠ .ended e := by
  intro hm
  have := run_ended_add hm (n - m)
  rw [Nat.add_sub_cancel' hmn, h] at this
  cases this

/-- The calls of a run only grow. -/
theorem calls_run {s s' : σ} {n : Nat} (h : sys.run n s = .going s') :
    sys.calls s <:+ sys.calls s' := by
  induction n generalizing s with
  | zero =>
      cases h
      exact List.suffix_rfl
  | succ n ih =>
      cases hs : sys.step s with
      | going t =>
          rw [run_succ_going hs] at h
          exact (sys.calls_going hs).trans (ih h)
      | ended e =>
          rw [run_succ_ended hs] at h
          cases h

/-- The calls of a run are among those that it ends with. -/
theorem calls_run_ended {s : σ} {e : Ending} {n : Nat} (h : sys.run n s = .ended e) :
    sys.calls s <:+ e.calls := by
  induction n generalizing s with
  | zero => cases h
  | succ n ih =>
      cases hs : sys.step s with
      | going t =>
          rw [run_succ_going hs] at h
          exact (sys.calls_going hs).trans (ih h)
      | ended e' =>
          rw [run_succ_ended hs] at h
          cases h
          exact sys.calls_ended hs

/-- While a run goes on, its behaviour has no ending. -/
theorem behaviour_going {s s' : σ} {n : Nat} (h : sys.run n s = .going s') :
    sys.behaviour s n = ⟨sys.calls s', none⟩ := by
  rw [behaviour, h]

/-- A run that has ended keeps its ending. -/
theorem behaviour_ended {s : σ} {e : Ending} {n : Nat} (h : sys.run n s = .ended e) :
    sys.behaviour s n = ⟨e.calls, some e⟩ := by
  rw [behaviour, h]

/-- A behaviour ends as some run of the system does. -/
theorem ends_iff {s : σ} {e : Ending} :
    (sys.behaviour s).Ends e ↔ ∃ n, sys.run n s = .ended e := by
  constructor
  · rintro ⟨n, hn⟩
    refine ⟨n, ?_⟩
    cases hr : sys.run n s with
    | going t => rw [behaviour_going hr] at hn; cases hn
    | ended e' =>
        rw [behaviour_ended hr] at hn
        cases hn
        rfl
  · rintro ⟨n, hn⟩
    exact ⟨n, by rw [behaviour_ended hn]⟩

/-- A run makes the calls of its end only. -/
theorem makes_of_ended {s : σ} {e : Ending} {n : Nat} (h : sys.run n s = .ended e)
    {calls : List CallEvent} (hmakes : (sys.behaviour s).Makes calls) : calls <:+ e.calls := by
  obtain ⟨m, hm⟩ := hmakes
  refine hm.trans ?_
  cases hr : sys.run m s with
  | going t =>
      have hrest := run_add hr n
      rw [Nat.add_comm, run_ended_add h] at hrest
      rw [behaviour_going hr]
      exact calls_run_ended hrest.symm
  | ended e' =>
      have hcalls : (sys.behaviour s m).calls = e.calls := by
        rw [behaviour_ended hr, ended_unique h hr]
      exact hcalls ▸ List.suffix_rfl

/-- Before a time at which it is going, a run has made no other calls. -/
theorem calls_of_going {s s' : σ} {m n : Nat} (hmn : m ≤ n) (h : sys.run n s = .going s') :
    (sys.behaviour s m).calls <:+ sys.calls s' := by
  cases hr : sys.run m s with
  | going t =>
      rw [behaviour_going hr]
      rw [← Nat.add_sub_cancel' hmn, run_add hr] at h
      exact calls_run h
  | ended e => exact absurd hr (not_ended_of_going hmn h)

end System

/-! ## From steps to runs -/

namespace Behaviour

/-- What a time of a behaviour has to find in the runs of a system. -/
def Matched {σ : Type} (sys : System σ) (start : σ) (seen : Observation) : Prop :=
  match seen.ending with
  | some e => seen.calls = e.calls ∧ ∃ k, sys.run k start = .ended e
  | none => ∃ k s, sys.run k start = .going s ∧ sys.calls s = seen.calls

/-- A behaviour that a system matches at all times, and without waiting
    forever at any time of its own, is the behaviour of the system. -/
theorem same_of_forward {σ : Type} {sys : System σ} {start : σ} {behaviour : Behaviour}
    (matched : ∀ n, Matched sys start (behaviour n))
    (progress : ∀ k, ∃ n, (behaviour n).ending = none →
      ∃ k' s, k ≤ k' ∧ sys.run k' start = .going s ∧ sys.calls s = (behaviour n).calls) :
    Same behaviour (sys.behaviour start) := by
  have forward : ∀ {n e}, (behaviour n).ending = some e →
      (behaviour n).calls = e.calls ∧ ∃ k, sys.run k start = .ended e := by
    intro n e he
    have h := matched n
    rw [Matched, he] at h
    exact h
  -- endings: where the system has ended, the behaviour cannot still go on
  constructor
  · intro e
    rw [System.ends_iff]
    constructor
    · rintro ⟨n, hn⟩
      exact (forward hn).2
    · rintro ⟨k, hk⟩
      obtain ⟨n, hn⟩ := progress k
      cases he : (behaviour n).ending with
      | some e' =>
          obtain ⟨-, k', hk'⟩ := forward he
          cases System.ended_unique hk hk'
          exact ⟨n, he⟩
      | none =>
          obtain ⟨k', s, hle, hgoing, -⟩ := hn he
          exact absurd hk (System.not_ended_of_going hle hgoing)
  -- calls: each list of calls is seen at some time on both sides, if not at the same one
  · intro calls
    constructor
    · rintro ⟨n, hn⟩
      cases he : (behaviour n).ending with
      | some e =>
          obtain ⟨hcalls, k, hk⟩ := forward he
          refine ⟨k, ?_⟩
          rw [System.behaviour_ended hk, ← hcalls]
          exact hn
      | none =>
          have h := matched n
          rw [Matched, he] at h
          obtain ⟨k, s, hk, hcalls⟩ := h
          refine ⟨k, ?_⟩
          rw [System.behaviour_going hk, hcalls]
          exact hn
    · rintro ⟨k, hk⟩
      obtain ⟨n, hn⟩ := progress k
      refine ⟨n, hk.trans ?_⟩
      -- what the system has called by now it has still called when the other side is as far
      cases he : (behaviour n).ending with
      | some e =>
          obtain ⟨hcalls, k', hk'⟩ := forward he
          rw [hcalls]
          exact System.makes_of_ended hk' ⟨k, List.suffix_rfl⟩
      | none =>
          obtain ⟨k', s, hle, hgoing, hcalls⟩ := hn he
          rw [← hcalls]
          exact System.calls_of_going hle hgoing

end Behaviour

namespace System

variable {σ τ : Type} {sys : System σ} {target : System τ}

/-- What a step of one system has to find in another one: some steps, and at
    least one unless a measure decreases. -/
def StepMatched (target : System τ) (related : σ → τ → Prop) (measure : σ → Nat) (s : σ) (t : τ) :
    Progress σ → Prop
  | .going s' => ∃ k t', target.run k t = .going t' ∧ related s' t' ∧
      (k = 0 → measure s' < measure s)
  | .ended e => ∃ k, target.run k t = .ended e

variable {related : σ → τ → Prop} {measure : σ → Nat}

/-- Every run is matched. -/
theorem run_matched
    (step : ∀ s t, related s t → StepMatched target related measure s t (sys.step s))
    (n : Nat) {s : σ} {t : τ} (hst : related s t) :
    match sys.run n s with
    | .going s' => ∃ k t', target.run k t = .going t' ∧ related s' t'
    | .ended e => ∃ k, target.run k t = .ended e := by
  induction n generalizing s t with
  | zero => exact ⟨0, t, rfl, hst⟩
  -- the other side takes the steps of the first one, and then those of the rest
  | succ n ih =>
      have hstep := step s t hst
      cases hs : sys.step s with
      | ended e =>
          rw [run_succ_ended hs]
          rw [hs] at hstep
          exact hstep
      | going s₁ =>
          rw [run_succ_going hs]
          rw [hs] at hstep
          obtain ⟨k, t₁, hk, hst₁, -⟩ := hstep
          have hrest := ih hst₁
          cases hr : sys.run n s₁ with
          | ended e =>
              rw [hr] at hrest
              obtain ⟨k', hk'⟩ := hrest
              exact ⟨k + k', by rw [run_add hk]; exact hk'⟩
          | going s₂ =>
              rw [hr] at hrest
              obtain ⟨k', t₂, hk', hst₂⟩ := hrest
              exact ⟨k + k', t₂, by rw [run_add hk]; exact hk', hst₂⟩

/-- From related states the first system ends, or both get ahead. -/
def Advances (sys : System σ) (target : System τ) (related : σ → τ → Prop) (s : σ) (t : τ)
    (k : Nat) : Prop :=
  ∃ n, (∃ e, sys.run n s = .ended e) ∨
    ∃ s' k' t', sys.run n s = .going s' ∧ k ≤ k' ∧ target.run k' t = .going t' ∧ related s' t'

/-- Steps that the target does not take along cannot go on forever. -/
theorem advances_one
    (step : ∀ s t, related s t → StepMatched target related measure s t (sys.step s))
    {s : σ} {t : τ} (hst : related s t) : Advances sys target related s t 1 := by
  -- the measure bounds the number of steps that the target waits for
  induction hm : measure s using Nat.strongRecOn generalizing s with
  | ind m ih =>
      have hstep := step s t hst
      cases hs : sys.step s with
      | ended e => exact ⟨1, Or.inl ⟨e, run_succ_ended hs 0⟩⟩
      | going s₁ =>
          rw [hs] at hstep
          obtain ⟨k, t₁, hk, hst₁, hstutter⟩ := hstep
          cases k with
          | succ k =>
              exact ⟨1, Or.inr ⟨s₁, k + 1, t₁, run_succ_going hs 0, by omega, hk, hst₁⟩⟩
          | zero =>
              cases hk
              obtain ⟨n, hn⟩ := ih (measure s₁) (hm ▸ hstutter rfl) hst₁ rfl
              refine ⟨n + 1, ?_⟩
              rw [run_succ_going hs]
              exact hn

/-- A related run ends, or leads the target on by as many steps as are asked for. -/
theorem advances
    (step : ∀ s t, related s t → StepMatched target related measure s t (sys.step s))
    (k : Nat) {s : σ} {t : τ} (hst : related s t) : Advances sys target related s t k := by
  induction k generalizing s t with
  | zero => exact ⟨0, Or.inr ⟨s, 0, t, rfl, Nat.le_refl 0, rfl, hst⟩⟩
  | succ k ih =>
      obtain ⟨n₁, hfirst⟩ := advances_one step hst
      rcases hfirst with ⟨e, he⟩ | ⟨s₁, k₁, t₁, hs₁, hle₁, ht₁, hst₁⟩
      · exact ⟨n₁, Or.inl ⟨e, he⟩⟩
      · obtain ⟨n₂, hrest⟩ := ih hst₁
        refine ⟨n₁ + n₂, ?_⟩
        rw [run_add hs₁]
        rcases hrest with ⟨e, he⟩ | ⟨s₂, k₂, t₂, hs₂, hle₂, ht₂, hst₂⟩
        · exact Or.inl ⟨e, he⟩
        · exact Or.inr ⟨s₂, k₁ + k₂, t₂, hs₂, by omega, by rw [run_add ht₁]; exact ht₂, hst₂⟩

/-- **SIMULATION**: a system that matches every step of another one, and
    does not wait forever, behaves like it. -/
theorem same_of_simulation
    (calls : ∀ s t, related s t → target.calls t = sys.calls s)
    (step : ∀ s t, related s t → StepMatched target related measure s t (sys.step s))
    {s : σ} {t : τ} (hst : related s t) :
    Behaviour.Same (sys.behaviour s) (target.behaviour t) := by
  apply Behaviour.same_of_forward
  · intro n
    have hmatched := run_matched step n hst
    -- every run is matched, going or ended
    cases hr : sys.run n s with
    | going s' =>
        rw [hr] at hmatched
        obtain ⟨k, t', hk, hst'⟩ := hmatched
        rw [behaviour_going hr]
        exact ⟨k, t', hk, calls s' t' hst'⟩
    | ended e =>
        rw [hr] at hmatched
        rw [behaviour_ended hr]
        exact ⟨rfl, hmatched⟩
  -- and no run of the target is longer than all of its counterparts
  · intro k
    obtain ⟨n, hn⟩ := advances step k hst
    refine ⟨n, ?_⟩
    intro hgoing
    rcases hn with ⟨e, he⟩ | ⟨s', k', t', hs', hle, ht', hst'⟩
    · rw [behaviour_ended he] at hgoing
      cases hgoing
    · refine ⟨k', t', hle, ht', ?_⟩
      rw [behaviour_going hs']
      exact calls s' t' hst'

/-! ## Runs side by side -/

/-- What one step of a system has to find in another one: one step or more. -/
def StepFollowed (target : System τ) (related : σ → τ → Prop) (t : τ) (k : Nat) :
    Progress σ → Prop
  | .going s' => ∃ t', target.run (k + 1) t = .going t' ∧ related s' t'
  | .ended e => target.run (k + 1) t = .ended e

/-- What is seen of two runs at the same time. -/
def Alike (alike : σ → τ → Prop) : Progress σ → Progress τ → Prop
  | .going s, .going t => alike s t
  | .ended e, .ended e' => e = e'
  | _, _ => False

/-- Two runs side by side: wherever the first one is after some steps, the
    second one is after as many steps or more, and both end at once. -/
def Paced (sys : System σ) (target : System τ) (alike : σ → τ → Prop) (s : σ) (t : τ) : Prop :=
  ∃ pace : Nat → Nat, pace 0 = 0 ∧ (∀ n, pace n < pace (n + 1)) ∧
    ∀ n, Alike alike (sys.run n s) (target.run (pace n) t)

/-- A pace for a relation is one for every weaker relation. -/
theorem Paced.imp {alike alike' : σ → τ → Prop} (himp : ∀ s t, alike s t → alike' s t) {s : σ}
    {t : τ} (h : Paced sys target alike s t) : Paced sys target alike' s t := by
  obtain ⟨pace, hzero, hgrows, halike⟩ := h
  refine ⟨pace, hzero, hgrows, fun n => ?_⟩
  have hn := halike n
  cases hs : sys.run n s with
  | going s' =>
      cases ht : target.run (pace n) t with
      | going t' => rw [hs, ht] at hn; exact himp s' t' hn
      | ended e => rw [hs, ht] at hn; exact hn.elim
  | ended e =>
      cases ht : target.run (pace n) t with
      | going t' => rw [hs, ht] at hn; exact hn.elim
      | ended e' => rw [hs, ht] at hn; exact hn

/-- The times at which a system has followed another one, if it takes
    `count s t + 1` steps for a step from `s`. -/
def paceOf (sys : System σ) (target : System τ) (count : σ → τ → Nat) : Nat → σ → τ → Nat
  | 0, _, _ => 0
  | n + 1, s, t =>
    count s t + 1 + match sys.step s, target.run (count s t + 1) t with
      | .going s', .going t' => paceOf sys target count n s' t'
      | _, _ => n

/-- The pace grows with each step. -/
theorem paceOf_grows (count : σ → τ → Nat) (n : Nat) (s : σ) (t : τ) :
    paceOf sys target count n s t < paceOf sys target count (n + 1) s t := by
  induction n generalizing s t with
  | zero =>
      rw [paceOf, paceOf]
      exact Nat.lt_of_lt_of_le (Nat.succ_pos _) (Nat.le_add_right _ _)
  | succ n ih =>
      rw [paceOf, paceOf]
      refine Nat.add_lt_add_left ?_ _
      cases sys.step s with
      | ended e => exact Nat.lt_succ_self n
      | going s' =>
          cases target.run (count s t + 1) t with
          | ended e => exact Nat.lt_succ_self n
          | going t' => exact ih s' t'

/-- **RUNS SIDE BY SIDE**: a system that follows every step of another one goes
    along with all of its runs. -/
theorem paced_of_steps
    (step : ∀ s t, related s t → ∃ k, StepFollowed target related t k (sys.step s))
    {s : σ} {t : τ} (hst : related s t) : Paced sys target related s t := by
  have hchoice : ∀ pair : σ × τ, ∃ k, related pair.1 pair.2 →
      StepFollowed target related pair.2 k (sys.step pair.1) := by
    intro pair
    by_cases h : related pair.1 pair.2
    · obtain ⟨k, hk⟩ := step pair.1 pair.2 h
      exact ⟨k, fun _ => hk⟩
    · exact ⟨0, fun h' => absurd h' h⟩
  -- one number of steps for each pair of related states, whether they are met or not
  obtain ⟨count, hcount⟩ := Classical.axiomOfChoice hchoice
  let steps : σ → τ → Nat := fun s t => count (s, t)
  refine ⟨fun n => paceOf sys target steps n s t, rfl, fun n => paceOf_grows steps n s t, ?_⟩
  intro n
  dsimp only
  induction n generalizing s t with
  | zero => exact hst
  | succ n ih =>
      -- the step takes its own number, and the rest starts where the target is then
      have hstep : StepFollowed target related t (steps s t) (sys.step s) := hcount (s, t) hst
      cases hs : sys.step s with
      | ended e =>
          rw [hs] at hstep
          rw [run_succ_ended hs, paceOf, run_ended_add hstep]
          rfl
      | going s₁ =>
          rw [hs] at hstep
          obtain ⟨t₁, ht₁, hst₁⟩ := hstep
          rw [run_succ_going hs, paceOf, hs, ht₁, run_add ht₁]
          exact ih hst₁

/-- A system that follows every step of another one behaves like it. -/
theorem same_of_steps (calls : ∀ s t, related s t → target.calls t = sys.calls s)
    (step : ∀ s t, related s t → ∃ k, StepFollowed target related t k (sys.step s))
    {s : σ} {t : τ} (hst : related s t) :
    Behaviour.Same (sys.behaviour s) (target.behaviour t) := by
  have hmatched : ∀ s t, related s t →
      StepMatched target related (fun _ => 0) s t (sys.step s) := by
    intro s t h
    obtain ⟨k, hk⟩ := step s t h
    cases hs : sys.step s with
    | going s' =>
        rw [hs] at hk
        obtain ⟨t', ht', hst'⟩ := hk
        exact ⟨k + 1, t', ht', hst', nofun⟩
    | ended e =>
        rw [hs] at hk
        exact ⟨k + 1, hk⟩
  exact same_of_simulation calls hmatched hst

end System

end DecafBackend
