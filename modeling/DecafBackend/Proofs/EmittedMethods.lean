import DecafBackend.Options
import DecafBackend.Proofs.CalmRuns
import DecafBackend.Proofs.EmittedRuns
import DecafBackend.Proofs.FitPasses
import DecafBackend.Proofs.LoweredBodies

/-! # Methods in machine code

    A method is lowered, goes through optimizations, and may get registers.  The
    code of the body that comes out behaves like the body.  With common
    subexpressions eliminated once at most, as the options have it, the body reads
    nothing undefined, so its code always leaves the registers of the caller as
    they were.

    * `Machine.Restores` — a return finds the registers of the caller
    * `Compiled` — what becomes of a method
    * `Compiled.ready`, `Compiled.unstuck` — it can be emitted, and reads nothing
      undefined
    * `emitMethod_same_behaviour` — its code behaves like it -/

namespace DecafBackend

/-! ## Returns -/

/-- Wherever a function returns, the registers that have to be preserved are as
    they were at its entry, the stack pointer and the frame pointer among them. -/
def Machine.Restores (machine : Machine) : Prop :=
  ∀ {n : Nat} {state : MachineState} {rest : List Instruction},
    machine.execution.run n ⟨machine.code, machine.entry⟩ = .going ⟨.ret :: rest, state⟩ →
    ∀ register : Register, register.isCalleeSaved = true →
      state.registers register = machine.entry.registers register

/-- A machine that is restored has its callee-saved registers back. -/
theorem Machine.registers_of_isRestored {machine : Machine} {state : MachineState}
    (h : machine.isRestored state = true) {register : Register}
    (hsaved : register.isCalleeSaved = true) :
    state.registers register = machine.entry.registers register := by
  obtain ⟨hall, -⟩ := Bool.and_eq_true_iff.mp h
  have hmem : register ∈ Register.all := by cases register <;> decide
  have hone := List.all_eq_true.mp hall register hmem
  rw [hsaved] at hone
  exact of_decide_eq_true hone

/-- A return that did not restore the registers would lead nowhere. -/
theorem Machine.restores_of_unstuck {machine : Machine} (h : machine.behaviour.Unstuck) :
    machine.Restores := by
  intro n state rest hrun register hsaved
  cases hrestored : machine.isRestored state with
  | true => exact registers_of_isRestored hrestored hsaved
  | false =>
      have hstep : machine.execution.step ⟨.ret :: rest, state⟩ = .ended (state.stop .stuck) := by
        show machine.proceed rest (if machine.isRestored state then _ else _) = _
        rw [hrestored]
        rfl
      have hended : machine.execution.run (n + 1) ⟨machine.code, machine.entry⟩ =
          .ended (state.stop .stuck) := by
        rw [System.run_add hrun, System.run_one, hstep]
      exact absurd rfl (h _ (System.ends_iff.mpr ⟨n + 1, hended⟩))

/-- A caller that looks for a result finds no more runs stuck. -/
theorem Behaviour.Unstuck.withResult {behaviour : Behaviour} (h : behaviour.Unstuck) :
    behaviour.withResult.Unstuck := by
  rintro ending ⟨n, hending⟩ hstuck
  obtain ⟨last, hlast, rfl⟩ := Option.map_eq_some_iff.mp hending
  refine h last ⟨n, hlast⟩ ?_
  obtain ⟨outcome, globals, calls⟩ := last
  cases outcome with
  | stuck => rfl
  | aborted abort => cases hstuck
  | returned value => cases value <;> cases hstuck

/-- A run that does the same is stuck no more. -/
theorem Behaviour.Unstuck.of_same {a b : Behaviour} (h : a.Unstuck) (hsame : Same a b) :
    b.Unstuck := fun ending hends => h ending ((hsame.ends ending).mpr hends)

/-! ## Compiled bodies -/

/-- The options eliminate common subexpressions once at most. -/
theorem OptimizeOptions.passes_once (options : OptimizeOptions) :
    options.passes.count .commonTerms ≤ 1 := by
  obtain ⟨copies, commonTerms, deadSaves⟩ := options
  cases copies <;> cases commonTerms <;> cases deadSaves <;> decide

namespace Emission

open Lowering Source

/-- What becomes of a method: it is lowered, goes through passes, and either gets
    registers or stays without them. -/
inductive Compiled (symbols : SymbolPool) (method : Method) (steps : Nat) (passes : List Pass) :
    Body → Prop
  /-- Nothing has a register. -/
  | unallocated {changed : Bool} {body : Body} :
      Pass.runAll steps passes (lowerMethod symbols method).1 = .ok (changed, body) →
      Compiled symbols method steps passes body
  /-- There are registers out of a palette. -/
  | allocated {changed : Bool} {optimized body : Body} {palette : List Register}
      {summary : AllocationSummary} :
      Pass.runAll steps passes (lowerMethod symbols method).1 = .ok (changed, optimized) →
      allocateRegisters palette optimized = .ok (summary, body) →
      Compiled symbols method steps passes body

section

variable {symbols pool : SymbolPool} {method : Method} {steps : Nat} {passes : List Pass}
  {body : Body}

/-- The texts of symbols stay as they are while more texts are interned, so
    different fields have different names. -/
theorem lowerMethod_separates
    (hpool : ∀ {symbol text}, (lowerMethod symbols method).2.text? symbol = some text →
      pool.text? symbol = some text) (world : World) (args : Nat → Word) :
    (settingOf world pool args).Separates (lowerMethod symbols method).1 := by
  intro a b i j ha hb hsame
  obtain ⟨text, htext⟩ := lowerMethod_names symbols method ha
  obtain ⟨text', htext'⟩ := lowerMethod_names symbols method hb
  -- symbols are texts of the pool, so different symbols name different fields
  have hfield : ∀ {symbol : Symbol} {text : String},
      (lowerMethod symbols method).2.find? text = some symbol →
        (settingOf world pool args).field symbol = text := by
    intro symbol text hfind
    show (pool.text? symbol).getD "" = text
    rw [hpool (SymbolPool.text?_of_find? hfind), Option.getD_some]
  rw [hfield htext, hfield htext'] at hsame
  subst hsame
  exact Option.some.inj (htext.symm.trans htext')

variable (hpasses : ∀ pass ∈ passes, Pass.ofName? pass.name = some pass)
include hpasses

/-- **COMPILED BODIES CAN BE EMITTED**. -/
theorem Compiled.ready (h : Compiled symbols method steps passes body)
    (hparams : method.params.length ≤ 2147483648) : body.Ready := by
  have hfit := lowerMethod_fit symbols method hparams
  cases h with
  | unallocated hrun => exact (hfit.runAll hpasses hrun).ready
  | allocated hrun hallocate => exact ((hfit.runAll hpasses hrun).allocated _ hallocate).1

/-- **COMPILED BODIES READ NOTHING UNDEFINED**, as lowered bodies do not and
    optimizations keep their behaviour. -/
theorem Compiled.unstuck (h : Compiled symbols method steps passes body)
    (hparams : method.params.length ≤ 2147483648) (honce : passes.count .commonTerms ≤ 1)
    (hpool : ∀ {symbol text}, (lowerMethod symbols method).2.text? symbol = some text →
      pool.text? symbol = some text)
    {world : World} (harithmetic : world.arithmetic = .standard) (args : Nat → Word)
    (globals : Globals) :
    (body.behaviour (settingOf world pool args) ⟨fun _ => none, globals⟩).Unstuck := by
  have hfit := lowerMethod_fit symbols method hparams
  -- optimizations keep the runs of a method that does not fail, and calm runs tell of all
  have hoptimized : ∀ {changed : Bool} {optimized : Body},
      Pass.runAll steps passes (lowerMethod symbols method).1 = .ok (changed, optimized) →
      (optimized.behaviour (settingOf world pool args) ⟨fun _ => none, globals⟩).Unstuck := by
    intro changed optimized hrun
    have hkept : Pass.Kept (lowerMethod symbols method).1 optimized :=
      Pass.foldlM_kept hfit.wellFormed hpasses honce
        (fun _ => lowerMethod_hasNoTemp symbols method) hrun
    have hunfailing := lowerMethod_unfailing symbols method world args globals hpool
    have hseparates : (settingOf world pool args).calm.Separates (lowerMethod symbols method).1 :=
      lowerMethod_separates hpool world args
    refine Body.unstuck_of_calm harithmetic fun ending hends => ?_
    exact (hunfailing.of_same (hkept.same hseparates hunfailing) ending hends).1
  cases h with
  | unallocated hrun => exact hoptimized hrun
  | allocated hrun hallocate =>
      obtain ⟨-, saved, hresaved⟩ := (hfit.runAll hpasses hrun).allocated _ hallocate
      rw [hresaved.behaviour_eq]
      exact hoptimized hrun

end

/-! ## Machine code -/

/-- **THE CODE OF COMPILED METHODS** behaves like the bodies that it is made of:
    it makes the same calls with the same arguments and fields, comes to the same
    end with the same fields, and where the body returns, the result is in `rax`,
    or zero without a result, and the registers of the caller are as they were.
    This holds with every palette, whatever callees leave in the registers that
    they need not preserve and below the stack pointer, for as long as the body
    reads nothing undefined; and it never does when common subexpressions have been
    eliminated once at most.  All parameters have positions of 32 bits, and every
    field has been declared, or there would be no code. -/
theorem emitMethod_same_behaviour {symbols pool : SymbolPool} {method : Method} {steps : Nat}
    {passes : List Pass} {body : Body} {session last : Session} {function : Function}
    {machine : Machine} (hparams : method.params.length ≤ 2147483648)
    (hpasses : ∀ pass ∈ passes, Pass.ofName? pass.name = some pass)
    (hcompiled : Compiled symbols method steps passes body)
    (hpool : ∀ {symbol text}, (lowerMethod symbols method).2.text? symbol = some text →
      pool.text? symbol = some text)
    (hemit : emitMethod body pool session = .ok (.ok function, last))
    (hcode : machine.code = function.code) (hlinked : Linked last machine)
    (hcalls : machine.entry.calls = [])
    (hserved : Served machine (body.behaviour (machine.setting pool last)
      ⟨fun _ => none, machine.entry.globals⟩)) :
    (passes.count .commonTerms ≤ 1 → (body.behaviour (machine.setting pool last)
        ⟨fun _ => none, machine.entry.globals⟩).Unstuck) ∧
      ((body.behaviour (machine.setting pool last)
          ⟨fun _ => none, machine.entry.globals⟩).Unstuck →
        Behaviour.Same (body.behaviour (machine.setting pool last)
          ⟨fun _ => none, machine.entry.globals⟩).withResult machine.behaviour ∧
        machine.Restores) := by
  constructor
  · intro honce
    exact @Compiled.unstuck symbols pool method steps passes body hpasses hcompiled hparams honce
      hpool ⟨.standard, fun text => machine.address ((last.label? text).getD ""),
        machine.environment⟩ rfl machine.incoming machine.entry.globals
  · intro hunstuck
    have hsame := emitMethod_same (hcompiled.ready hpasses hparams) hemit hcode hlinked hcalls
      hserved hunstuck
    exact ⟨hsame, Machine.restores_of_unstuck (hunstuck.withResult.of_same hsame)⟩

/-- A method that divides, adds to a field, and calls another method. -/
def dividing : Method where
  name := "f"
  params := ["a", "b"]
  returnsValue := true
  body := .mk ["x"]
    [.assign "x" .assign (.binary (.strict .div) (.var "a") (.var "b")),
      .assign "total" .addAssign (.var "x"),
      .ret (some (.binary (.strict .add)
        (.call (.mk "g" [.expr (.var "x"), .expr (.var "a")] false)) (.var "b")))]

/-- A machine that runs some code on the arguments 17 and 5.  Callees take two
    arguments, return the number of calls so far, and leave sevens and nines where
    they may leave anything. -/
def smallMachine (code : List Instruction) : Machine where
  code
  field _ := "total"
  address _ := 0
  environment calls := ⟨fun _ => 1, .ok (Int64.ofNat calls.length)⟩
  callee _ _ := .takes 2
  clobbered _ _ := 7
  scribbled _ _ := 9
  entry :=
    { registers := fun register =>
        match register with
        | .rdi => 17
        | .rsi => 5
        | .rsp => 65536
        | other => Int64.ofNat other.number
      stack := fun address => address
      globals := fun _ => 0 }

/-- The body of a method with all optimizations and registers. -/
def compiledBody (method : Method) : Checked Body := do
  let (_, optimized) ← Pass.runAll 60 ({} : OptimizeOptions).passes (lowerMethod {} method).1
  let (_, body) ← allocateRegisters Register.defaultPalette optimized
  return body

/-- Whether a body returns within some steps, and all its calls until then have two
    arguments. -/
def isServedWithin (n : Nat) (setting : Setting) (body : Body) : Bool :=
  match (body.execution setting).run n (body.start ⟨fun _ => none, fun _ => 0⟩) with
  | .ended ⟨.returned _, _, calls⟩ => calls.all fun event => event.args.length = 2
  | _ => false

/-- A small machine serves a run that returns and makes calls with two arguments only. -/
theorem served_of_isServedWithin {n : Nat} {setting : Setting} {body : Body}
    (h : isServedWithin n setting body = true) (code : List Instruction) :
    Served (smallMachine code) (body.behaviour setting ⟨fun _ => none, fun _ => 0⟩) := by
  unfold isServedWithin at h
  split at h
  · next value globals calls hrun =>
      constructor
      · intro event made hmakes
        have hmade : event :: made <:+ calls := System.makes_of_ended hrun hmakes
        have htwo : event.args.length = 2 :=
          of_decide_eq_true (List.all_eq_true.mp h event (hmade.mem List.mem_cons_self))
        rw [Takes, htwo]
        exact ⟨rfl, by decide⟩
      · intro ending code' hends hexit
        obtain ⟨m, hend⟩ := System.ends_iff.mp hends
        rw [← System.ended_unique hrun hend] at hexit
        cases hexit
  · cases h

/-- A machine with one field is linked to a session that declares it. -/
theorem linked_of_total {last : Session} (h : last.globals = ["total"]) (code : List Instruction) :
    Linked last (smallMachine code) := by
  intro name label hlabel
  obtain ⟨position, hposition, -⟩ := Option.map_eq_some_iff.mp hlabel
  obtain ⟨hlt, hname, -⟩ := List.findIdx?_eq_some_iff_getElem.mp hposition
  have hmem : last.globals[position] ∈ last.globals := List.getElem_mem hlt
  rw [eq_of_beq hname, h] at hmem
  exact (List.mem_singleton.mp hmem).symm

/-- Whether the code of a body can run on the machine above. -/
def isEmittedWithin (n : Nat) (pool : SymbolPool) (body : Body) : Bool :=
  match emitMethod body pool { globals := ["total"] } with
  | .ok (.ok function, last) =>
    last.globals = ["total"] &&
      isServedWithin n ((smallMachine function.code).setting pool last) body
  | _ => false

/-- What the test says is true: the code is emitted, linked and served. -/
theorem emitted_of_isEmittedWithin {n : Nat} {pool : SymbolPool} {body : Body}
    (h : isEmittedWithin n pool body = true) :
    ∃ function last, emitMethod body pool { globals := ["total"] } = .ok (.ok function, last) ∧
      Linked last (smallMachine function.code) ∧
      Served (smallMachine function.code) (body.behaviour
        ((smallMachine function.code).setting pool last) ⟨fun _ => none, fun _ => 0⟩) := by
  unfold isEmittedWithin at h
  split at h
  · next function last hemit =>
      obtain ⟨hglobals, hserved⟩ := Bool.and_eq_true_iff.mp h
      exact ⟨function, last, hemit, linked_of_total (of_decide_eq_true hglobals) _,
        served_of_isServedWithin hserved _⟩
  · cases h

/-- The method is run with registers, a division, a field, and a call. -/
theorem dividing_same_behaviour : ∃ body function last,
    compiledBody dividing = .ok body ∧
      emitMethod body (lowerMethod {} dividing).2 { globals := ["total"] } =
        .ok (.ok function, last) ∧
      Behaviour.Same (body.behaviour ((smallMachine function.code).setting
          (lowerMethod {} dividing).2 last) ⟨fun _ => none, fun _ => 0⟩).withResult
        (smallMachine function.code).behaviour ∧
      (smallMachine function.code).Restores := by
  obtain ⟨body, hbody, htest⟩ := @Checked.exists_of_test _ _ (compiledBody dividing)
    (isEmittedWithin 60 (lowerMethod {} dividing).2) (by decide +kernel)
  -- the compiled body, its code and the machine are computed, and the theorem does the rest
  obtain ⟨function, last, hemit, hlinked, hserved⟩ := emitted_of_isEmittedWithin htest
  obtain ⟨⟨changed, optimized⟩, hrun, hrest⟩ := Checked.bind_eq_ok hbody
  obtain ⟨⟨summary, allocated⟩, hallocate, hlast⟩ := Checked.bind_eq_ok hrest
  obtain rfl : allocated = body := Checked.pure_eq_ok hlast
  have hsame := @emitMethod_same_behaviour {} (lowerMethod {} dividing).2 dividing 60
    ({} : OptimizeOptions).passes allocated { globals := ["total"] } last function
    (smallMachine function.code) (by decide) (by decide) (.allocated hrun hallocate)
    (fun h => h) hemit rfl hlinked rfl hserved
  exact ⟨allocated, function, last, hbody, hemit,
    hsame.2 (hsame.1 (OptimizeOptions.passes_once _))⟩

end Emission

end DecafBackend
