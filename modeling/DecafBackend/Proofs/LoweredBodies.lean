import DecafBackend.Proofs.LoweringSteps

/-! # Lowered bodies are regular and initialized

    One lemma for each form of the tree says what its steps do.  So the body of a
    method is well-formed when it is finished, all labels stand at the starts of
    their blocks, control does not leave its end, and no variable is read before it
    is saved.

    * `steps_copy`, `steps_saveBinary`, … — statements
    * `steps_shortCircuit`, `steps_lowerExpr` — expressions
    * `steps_ifElse`, `steps_lowerCounting`, `steps_lowerStmt` — statements of the tree
    * `finished_sound`, `Finished` — methods
    * `lowerMethod_regular`, `lowerMethod_fit`, `lowerMethod_initialized` — their bodies -/

namespace DecafBackend.Lowering

open Source

variable {bound : Nat}

section

variable {pending : List Label} {stage : Stage}

/-! ## Statements -/

/-- What a save of a value has to satisfy. -/
theorem proper_save {bound : Nat} {stmt : Inst} {value : Value} {dest : Loc} {body : Body}
    (hbody : body.locations = stage.body.locations)
    (hreads : ∀ access ∈ value.reads, Readable stage access.loc) (hdest : Writable stage dest)
    (hsaved : (Command.save value dest).saved = [])
    (hparam : ∀ inst index, value = .param inst index → index < bound) :
    (Command.save value dest).Proper bound body stmt where
  reads access haccess := by
    rw [hbody]
    exact (hreads access haccess).1
  dest loc hloc := by
    cases hloc
    rw [hbody]
    exact hdest
  target _ h := by cases h
  unsaved := hsaved
  param inst index _ h := by
    cases h
    exact hparam inst index rfl
  unused _ h := by cases h

/-- A save of what can be read is covered. -/
theorem covered_save {stmt : Inst} {value : Value} {dest : Loc} {body : Body}
    (hbody : body.locations = stage.body.locations)
    (hreads : ∀ access ∈ value.reads, Readable stage access.loc) :
    (Command.save value dest).Covered body stage.known stage.here stmt where
  reads access haccess htracks := by
    rw [Body.tracks, hbody] at htracks
    exact (hreads access haccess).2 htracks
  target _ h := by cases h

/-- A value that is no argument is saved with records that were made for it. -/
theorem steps_save {α : Type} {step : Lower α} {late : Builder} {stmt : Inst} {value : Value}
    {dest : Loc}
    (hstep : (step stage.state).2 = { stage.state with builder := late.place stmt false })
    (hrecords : Builder.Records stage.builder late)
    (hcommand : late.body.command? stmt = some (.save value dest))
    (hreads : ∀ access ∈ value.reads, Readable stage access.loc) (hdest : Writable stage dest)
    (hsaved : (Command.save value dest).saved = [])
    (hparam : ∀ inst index, value ≠ .param inst index)
    (hcallee : ∀ symbol, (Command.save value dest).callee? = some symbol →
      stage.symbols.Names symbol)
    (hnew : ∀ inst ∈ value.insts ++ [stmt], stage.body.records.size ≤ inst.index) :
    Steps bound pending stage step (fun _ => pending) fun _ late => dest ∈ late.here := by
  have hlocations := hrecords.locations
  exact (steps_statement hstep hrecords hcommand
    (proper_save hlocations hreads hdest hsaved fun inst index h => absurd h (hparam inst index))
    (covered_save hlocations hreads) hcallee hnew fun _ h => by cases h).imp
    fun _ _ _ h => h dest rfl

/-- Copying a readable location assigns the destination. -/
theorem steps_copy {src dest : Loc} (hsrc : Readable stage src) (hdest : Writable stage dest) :
    Steps bound pending stage (emit (·.copy src dest)) (fun _ => pending)
      fun _ late => dest ∈ late.here := by
  let load := stage.builder.create (.load src)
  let save := load.2.create (.save load.1 dest)
  refine @steps_save _ pending stage _ _ save.2 save.1 (.load ⟨load.1, src⟩) dest rfl
    (((Builder.Records.refl _).create _).create _) ?_ ?_ hdest rfl (fun _ _ h => by cases h)
    (fun _ h => by cases h) ?_
  · exact Body.command?_eq_some.mpr
      ⟨Body.records_create _, Builder.getElem?_push_of_some (Body.records_create _)⟩
  · intro access haccess
    rw [List.mem_singleton.mp haccess]
    exact hsrc
  · have hsize : save.1.index = stage.body.records.size + 1 := Array.size_push _
    simp only [Value.insts, List.cons_append, List.nil_append, List.forall_mem_cons]
    exact ⟨Nat.le_refl _, by omega, fun _ h => by cases h⟩

/-- Saving the result of a binary operator assigns the destination. -/
theorem steps_saveBinary (op : BinaryOp) {lhs rhs dest : Loc} (hlhs : Readable stage lhs)
    (hrhs : Readable stage rhs) (hdest : Writable stage dest) :
    Steps bound pending stage
      (build (·.binary op lhs rhs) >>= fun value => emit (·.save value dest))
      (fun _ => pending) fun _ late => dest ∈ late.here := by
  let left := stage.builder.create (.load lhs)
  let right := left.2.create (.load rhs)
  let value := right.2.create (.binary op left.1 right.1)
  let save := value.2.create (.save value.1 dest)
  refine @steps_save _ pending stage _ _ save.2 save.1
    (.binary value.1 op ⟨left.1, lhs⟩ ⟨right.1, rhs⟩) dest rfl
    (((((Builder.Records.refl _).create _).create _).create _).create _) ?_ ?_ hdest rfl
    -- the command is read off the records that were created, newest first
    (fun _ _ h => by cases h) (fun _ h => by cases h) ?_
  · refine Body.command?_eq_some.mpr ⟨Body.records_create _,
      Builder.getElem?_push_of_some (Body.records_create _), ?_, ?_⟩
    · exact Builder.getElem?_push_of_some (Builder.getElem?_push_of_some
        (Builder.getElem?_push_of_some (Body.records_create _)))
    · exact Builder.getElem?_push_of_some (Builder.getElem?_push_of_some (Body.records_create _))
  · simp only [Value.reads, List.forall_mem_cons]
    exact ⟨hlhs, hrhs, fun _ h => by cases h⟩
  -- the instructions are new, and in the order of their creation
  · have h₁ : right.1.index = stage.body.records.size + 1 := Array.size_push _
    have h₂ : value.1.index = right.1.index + 1 := Array.size_push _
    have h₃ : save.1.index = value.1.index + 1 := Array.size_push _
    simp only [Value.insts, List.cons_append, List.nil_append, List.forall_mem_cons]
    exact ⟨Nat.le_refl _, by omega, by omega, by omega, fun _ h => by cases h⟩

/-- Saving the result of a unary operator assigns the destination. -/
theorem steps_saveUnary (op : UnaryOp) {operand dest : Loc} (hoperand : Readable stage operand)
    (hdest : Writable stage dest) :
    Steps bound pending stage (build (·.unary op operand) >>= fun value => emit (·.save value dest))
      (fun _ => pending) fun _ late => dest ∈ late.here := by
  let load := stage.builder.create (.load operand)
  let value := load.2.create (.unary op load.1)
  let save := value.2.create (.save value.1 dest)
  refine @steps_save _ pending stage _ _ save.2 save.1 (.unary value.1 op ⟨load.1, operand⟩) dest
    rfl ((((Builder.Records.refl _).create _).create _).create _) ?_ ?_ hdest rfl
    (fun _ _ h => by cases h) (fun _ h => by cases h) ?_
  · exact Body.command?_eq_some.mpr ⟨Body.records_create _,
      Builder.getElem?_push_of_some (Body.records_create _),
      Builder.getElem?_push_of_some (Builder.getElem?_push_of_some (Body.records_create _))⟩
  · intro access haccess
    rw [List.mem_singleton.mp haccess]
    exact hoperand
  · have h₁ : value.1.index = stage.body.records.size + 1 := Array.size_push _
    have h₂ : save.1.index = value.1.index + 1 := Array.size_push _
    simp only [Value.insts, List.cons_append, List.nil_append, List.forall_mem_cons]
    exact ⟨Nat.le_refl _, by omega, by omega, fun _ h => by cases h⟩

/-- Saving the result of a call assigns the destination. -/
theorem steps_saveCall {target : Symbol} (htarget : stage.symbols.Names target) {args : List Loc}
    (isExternal : Bool) {dest : Loc} (hargs : ∀ loc ∈ args, Readable stage loc)
    (hdest : Writable stage dest) :
    Steps bound pending stage
      (build (·.call target args isExternal) >>= fun value => emit (·.save value dest))
      (fun _ => pending) fun _ late => dest ∈ late.here := by
  let call := stage.builder.create (.call target args isExternal [])
  let save := call.2.create (.save call.1 dest)
  refine @steps_save _ pending stage _ _ save.2 save.1 (.call call.1 target args isExternal []) dest
    rfl (((Builder.Records.refl _).create _).create _) ?_ ?_ hdest rfl
      (fun _ _ h => by cases h) ?_ ?_
  · exact Body.command?_eq_some.mpr
      ⟨Body.records_create _, Builder.getElem?_push_of_some (Body.records_create _)⟩
  · intro access haccess
    obtain ⟨loc, hloc, rfl⟩ := List.mem_map.mp haccess
    exact hargs loc hloc
  · exact fun symbol h => Option.some.inj h ▸ htarget
  · have hsize : save.1.index = stage.body.records.size + 1 := Array.size_push _
    simp only [Value.insts, List.cons_append, List.nil_append, List.forall_mem_cons]
    exact ⟨Nat.le_refl _, by omega, fun _ h => by cases h⟩

/-- A call statement keeps the stage sound. -/
theorem steps_callStmt {target : Symbol} (htarget : stage.symbols.Names target) {args : List Loc}
    (isExternal : Bool) (hargs : ∀ loc ∈ args, Readable stage loc) :
    Steps bound pending stage (build (·.call target args isExternal) >>= fun value =>
        emit fun builder => ((), builder.callStmt value)) (fun _ => pending) fun _ _ => True := by
  let call := stage.builder.create (.call target args isExternal [])
  refine (@steps_statement _ _ pending stage _ call.2 call.1 (.call target args isExternal []) rfl
    ((Builder.Records.refl _).create _) (Body.command?_eq_some.mpr (Body.records_create _))
    ?_ ?_ ?_ ?_ fun _ h => by cases h).imp fun _ _ _ _ => trivial
  · refine ⟨fun access haccess => ?_, fun _ h => ?_, fun _ h => ?_, rfl, fun _ _ _ h => ?_,
      fun _ h => ?_⟩
    · obtain ⟨loc, hloc, rfl⟩ := List.mem_map.mp haccess
      exact (hargs loc hloc).1
    · cases h
    · cases h
    · cases h
    · cases h
  · refine ⟨fun access haccess => ?_, fun _ h => by cases h⟩
    obtain ⟨loc, hloc, rfl⟩ := List.mem_map.mp haccess
    exact (hargs loc hloc).2
  · exact fun symbol h => Option.some.inj h ▸ htarget
  · intro inst hinst
    rw [List.mem_singleton.mp hinst]
    exact Nat.le_refl _

/-- A branch on zero keeps the stage sound. -/
theorem steps_branchIfZero {cond : Loc} {target : Label} (hcond : Readable stage cond)
    (htarget : Known stage target) :
    Steps bound pending stage (emit (·.branchIfZero cond target)) (fun _ => pending)
      fun _ _ => True := by
  let load := stage.builder.create (.load cond)
  let branch := load.2.create (.branch load.1 target)
  refine (@steps_statement _ _ pending stage _ branch.2 branch.1 (.branch ⟨load.1, cond⟩ target) rfl
    (((Builder.Records.refl _).create _).create _) ?_ ?_ ?_ (fun _ h => by cases h) ?_
    fun _ h => by cases h).imp fun _ _ _ _ => trivial
  · exact Body.command?_eq_some.mpr
      ⟨Body.records_create _, Builder.getElem?_push_of_some (Body.records_create _)⟩
  · refine ⟨fun access haccess => ?_, fun _ h => ?_, fun _ h => ?_, rfl, fun _ _ _ h => ?_,
      fun _ h => ?_⟩
    · rw [List.mem_singleton.mp haccess]
      exact hcond.1
    · cases h
    · cases h
      exact htarget.1
    · cases h
    · cases h
  · refine ⟨fun access haccess => ?_, fun label hlabel => ?_⟩
    · rw [List.mem_singleton.mp haccess]
      exact hcond.2
    · cases hlabel
      exact htarget.2
  · have hsize : branch.1.index = stage.body.records.size + 1 := Array.size_push _
    simp only [Command.owned, List.cons_append, List.nil_append, List.forall_mem_cons]
    exact ⟨Nat.le_refl _, by omega, fun _ h => by cases h⟩

/-- A statement without operands: a jump, a return or the end of the process. -/
theorem steps_plain {record : Record} {command : Command}
    (hcommand : ∀ stmt, (stage.builder.create record).2.body.records[stmt]? = some record →
      (stage.builder.create record).2.body.command? ⟨stmt⟩ = some command)
    (hends : record.endsBlock = command.endsBlock) (hendsBlock : command.endsBlock = true)
    (howned : command.owned = []) (hreads : ∀ stmt, command.reads stmt = [])
    (htarget : ∀ label, command.target? = some label → Known stage label) :
    Steps bound pending stage (emit (·.append record)) (fun _ => pending) fun _ _ => True := by
  let stmt := stage.builder.create record
  have hdest : ∀ value dest, command ≠ .save value dest := fun _ _ h => by
    rw [h] at hendsBlock
    cases hendsBlock
  refine (@steps_statement _ _ pending stage _ stmt.2 stmt.1 command ?_
    ((Builder.Records.refl _).create _) (hcommand _ (Body.records_create _)) ?_ ?_ ?_ ?_ ?_).imp
    fun _ _ _ _ => trivial
  · rw [← hends]
    rfl
  · refine ⟨fun access haccess => ?_, fun _ h => ?_, fun label h => (htarget label h).1, ?_,
      fun _ _ _ h => absurd h (hdest _ _), fun _ h => ?_⟩
    · rw [hreads] at haccess
      cases haccess
    · obtain ⟨value, rfl⟩ := Command.eq_save h
      exact absurd rfl (hdest value _)
    · cases command with
      | save | call | use | label => cases hendsBlock
      | jump | branch | ret | exit => rfl
    · rw [h] at hendsBlock
      cases hendsBlock
  · refine ⟨fun access haccess => ?_, fun label h => (htarget label h).2⟩
    rw [hreads] at haccess
    cases haccess
  · intro symbol h
    cases command with
    | save | call | use | label => cases hendsBlock
    | jump | branch | ret | exit => cases h
  · intro inst hinst
    rw [howned, List.nil_append, List.mem_singleton] at hinst
    rw [hinst]
    exact Nat.le_refl _
  · intro label h
    rw [h] at hendsBlock
    cases hendsBlock

/-- A jump to a known label keeps the stage sound. -/
theorem steps_jump {target : Label} (htarget : Known stage target) :
    Steps bound pending stage (emit (·.jump target)) (fun _ => pending) fun _ _ => True := by
  refine @steps_plain _ pending stage (.jump target) (.jump target)
    (fun stmt h => Body.command?_eq_some.mpr h) rfl rfl rfl (fun _ => rfl) fun label h => ?_
  cases h
  exact htarget

/-- The end of the process keeps the stage sound. -/
theorem steps_exit (code : Int32) :
    Steps bound pending stage (emit (·.exit code)) (fun _ => pending) fun _ _ => True :=
  @steps_plain _ pending stage (.exit code) (.exit code)
    (fun stmt h => Body.command?_eq_some.mpr h) rfl rfl rfl (fun _ => rfl) fun _ h => by cases h

/-- A return keeps the stage sound, with a readable value or without one. -/
theorem steps_ret {value : Option Loc} (hvalue : ∀ loc, value = some loc → Readable stage loc) :
    Steps bound pending stage (emit (·.ret value)) (fun _ => pending) fun _ _ => True := by
  cases value with
  | none =>
      exact @steps_plain _ pending stage (.ret none) (.ret none)
        (fun stmt h => Body.command?_eq_some.mpr h) rfl rfl rfl (fun _ => rfl) fun _ h => by cases h
  | some loc =>
      let load := stage.builder.create (.load loc)
      let ret := load.2.create (.ret (some load.1))
      refine (@steps_statement _ _ pending stage _ ret.2 ret.1 (.ret (some ⟨load.1, loc⟩)) rfl
        (((Builder.Records.refl _).create _).create _) ?_ ?_ ?_ (fun _ h => by cases h) ?_
        fun _ h => by cases h).imp fun _ _ _ _ => trivial
      · exact Body.command?_eq_some.mpr
          ⟨Body.records_create _, Builder.getElem?_push_of_some (Body.records_create _)⟩
      · refine ⟨fun access haccess => ?_, fun _ h => ?_, fun _ h => ?_, rfl, fun _ _ _ h => ?_,
          fun _ h => ?_⟩
        · rw [List.mem_singleton.mp haccess]
          exact (hvalue loc rfl).1
        · cases h
        · cases h
        · cases h
        · cases h
      · refine ⟨fun access haccess => ?_, fun _ h => by cases h⟩
        rw [List.mem_singleton.mp haccess]
        exact (hvalue loc rfl).2
      · have hsize : ret.1.index = stage.body.records.size + 1 := Array.size_push _
        simp only [Command.owned, List.cons_append, List.nil_append, List.forall_mem_cons]
        exact ⟨Nat.le_refl _, by omega, fun _ h => by cases h⟩

/-- A parameter is a variable that its argument is saved into. -/
theorem steps_param (name : Symbol) (hbound : stage.body.params.length < bound) :
    Steps bound pending stage (build (·.param name)) (fun _ => pending) fun loc late =>
      Variable late loc ∧ late.body.params.length = stage.body.params.length + 1 := by
  let index := stage.body.params.length
  let early := (stage.builder.localVar name).2.noteParam (stage.builder.localVar name).1
  let param := early.create (.param index)
  let save := param.2.create (.save param.1 (stage.builder.localVar name).1)
  have hlocation : early.body.locations[(stage.builder.localVar name).1.index]? =
      some (.localVar name) := by
    show (stage.body.locations.push _)[stage.body.locations.size]? = _
    rw [Array.getElem?_push, if_pos rfl]
  refine @steps_attach _ _ pending stage _ early save.2 save.1
    (.save (.param param.1 index) (stage.builder.localVar name).1) rfl
    (fun h => (h.localVar name).noteParam _) ?_ rfl rfl rfl rfl ?_ ?_
    (((Builder.Records.refl _).create _).create _) ?_ ?_ ?_ (fun _ h => by cases h) ?_
    (fun _ h => by cases h) _ ?_
  -- the location of the parameter is new, so what is known of the others stays
  · exact ⟨id, Builder.getElem?_push_of_some, Nat.le_refl _⟩
  · show index ≤ (stage.body.params ++ [_]).length
    rw [List.length_append]
    exact Nat.le_add_right _ _
  · intro i other symbol hother hsymbol
    replace hother : (stage.body.locations.push (.localVar name))[i]? = some other := hother
    rw [Array.getElem?_push] at hother
    split at hother
    · cases hother
      cases hsymbol
    · exact hother
  · exact Body.command?_eq_some.mpr
      ⟨Body.records_create _, Builder.getElem?_push_of_some (Body.records_create _)⟩
  · refine ⟨fun _ h => ?_, fun loc h => ?_, fun _ h => ?_, rfl, fun _ _ _ h => ?_, fun _ h => ?_⟩
    · cases h
    · cases h
      exact ⟨_, hlocation, rfl⟩
    · cases h
    · cases h
      exact hbound
    · cases h
  · exact ⟨fun _ h => (by cases h), fun _ h => (by cases h)⟩
  · have hsize : save.1.index = early.body.records.size + 1 := Array.size_push _
    simp only [Command.owned, Value.insts, List.cons_append, List.nil_append, List.forall_mem_cons]
    exact ⟨Nat.le_refl _, by omega, fun _ h => by cases h⟩
  · have hwritable : Writable ⟨(build (·.param name) stage.state).2,
        stage.known.behind (.save (.param param.1 index) (stage.builder.localVar name).1)⟩
        (stage.builder.localVar name).1 := by
      refine ⟨.localVar name, ?_, rfl⟩
      show (save.2.place save.1 _).body.locations[_]? = _
      rw [Builder.place_locations]
      exact hlocation
    exact ⟨⟨hwritable, hwritable.readable (Or.inr rfl)⟩, params_param stage.state name⟩

/-- A new result can be written. -/
theorem steps_freshResult : Steps bound pending stage freshResult (fun _ => pending)
    fun loc late => Writable late loc := by
  refine Steps.bind (steps_aside rfl id trivial :
    Steps bound pending stage get _ fun _ _ => True) fun current mid _ _ => ?_
  refine (steps_intern s!".t{current.nextResult}").bind fun name mid _ _ => ?_
  refine Steps.bind (steps_aside rfl id trivial :
    Steps bound pending mid (modify fun state =>
      { state with nextResult := current.nextResult + 1 }) _ fun _ _ => True) fun _ _ _ _ => ?_
  exact steps_localVar name

/-- **A NAME IS RESOLVED** to a variable, a local one or a field. -/
theorem steps_resolve {scope : Scope} (hscope : Scoped scope stage) (name : String) :
    Steps bound pending stage (resolve scope name) (fun _ => pending)
      fun loc late => Variable late loc := by
  rw [resolve]
  cases hfound : scope.vars.lookup name with
  | some loc => exact steps_pure (hscope.vars loc (mem_of_lookup hfound))
  | none => exact (steps_intern name).bind fun symbol mid _ hnamed => steps_global hnamed

/-- A value has come to a location: to the target if there is one. -/
def Delivered (target : Option Loc) (loc : Loc) (stage : Stage) : Prop :=
  Readable stage loc ∧ ∀ dest, target = some dest → dest ∈ stage.here

/-- What has been assigned by now is delivered. -/
theorem Writable.delivered {dest : Loc} {target : Option Loc} (h : Writable stage dest)
    (hassigned : dest ∈ stage.here) (htarget : ∀ other, target = some other → other = dest) :
    Delivered target dest stage :=
  ⟨h.readable hassigned, fun other hother => htarget other hother ▸ hassigned⟩

/-- A value is delivered where it is asked for. -/
theorem steps_deliver {src : Loc} {target : Option Loc} (hsrc : Readable stage src)
    (htarget : ∀ dest, target = some dest → Writable stage dest) :
    Steps bound pending stage (deliver src target) (fun _ => pending)
      fun loc late => Delivered target loc late := by
  cases target with
  | none => exact steps_pure ⟨hsrc, fun _ h => by cases h⟩
  | some dest =>
      have hdest := htarget dest rfl
      exact (steps_copy hsrc hdest).bind fun _ mid hmid hassigned =>
        steps_pure ((hdest.mono hmid).delivered hassigned fun _ h => (Option.some.inj h).symm)

/-- A result goes where it is asked for, or into a new location. -/
theorem steps_targetOrFresh {target : Option Loc}
    (htarget : ∀ dest, target = some dest → Writable stage dest) :
    Steps bound pending stage (targetOrFresh target) (fun _ => pending)
      fun loc late => Writable late loc ∧ ∀ dest, target = some dest → dest = loc := by
  cases target with
  | none => exact steps_freshResult.imp fun _ _ _ h => ⟨h, fun _ h => by cases h⟩
  | some dest => exact steps_pure ⟨htarget dest rfl, fun _ h => (Option.some.inj h).symm⟩

end

/-! ## Expressions -/

/-- No target is asked for. -/
theorem noTarget (stage : Stage) : ∀ dest, (none : Option Loc) = some dest → Writable stage dest :=
  fun _ h => by cases h

/-- A writable target. -/
theorem target_of_writable {stage : Stage} {loc : Loc} (h : Writable stage loc) :
    ∀ dest, some loc = some dest → Writable stage dest :=
  fun _ heq => Option.some.inj heq ▸ h

/-- A target stays writable. -/
theorem target_mono {early late : Stage} {target : Option Loc}
    (htarget : ∀ dest, target = some dest → Writable early dest) (h : early.Follows late) :
    ∀ dest, target = some dest → Writable late dest :=
  fun dest hdest => (htarget dest hdest).mono h

/-- The last pending label is the one to be placed. -/
theorem perm_last (pending : List Label) (label : Label) :
    (pending ++ [label]).Perm (label :: pending) := List.perm_append_singleton label pending

/-- The label in front of the last pending one is to be placed. -/
theorem perm_first (pending : List Label) (label last : Label) :
    (pending ++ [label] ++ [last]).Perm (label :: (pending ++ [last])) := by
  rw [List.append_assoc]
  exact List.perm_middle

/-- What is said of the code of an expression, wherever it is lowered. -/
def ExprSteps (bound : Nat) (scope : Scope) (expr : Expr) : Prop :=
  ∀ {target : Option Loc} {pending : List Label} {stage : Stage}, Scoped scope stage →
    (∀ dest, target = some dest → Writable stage dest) →
    Steps bound pending stage (lowerExpr scope expr target) (fun _ => pending)
      fun loc late => Delivered target loc late

/-- A value that was saved is delivered. -/
theorem Steps.delivered {α : Type} {pending : List Label} {stage : Stage} {step : Lower α}
    {dest : Loc} {target : Option Loc}
    (h : Steps bound pending stage step (fun _ => pending) fun _ late => dest ∈ late.here)
    (hdest : Writable stage dest) (htarget : ∀ other, target = some other → other = dest) :
    Steps bound pending stage (step >>= fun _ => pure dest) (fun _ => pending)
      fun loc late => Delivered target loc late :=
  h.bind fun _ _ f hassigned => steps_pure ((hdest.mono f).delivered hassigned htarget)

section

variable {scope : Scope} {lhs rhs : Expr}

/-- The left operand stays readable across a call of the right one. -/
theorem steps_keepLeft {pending : List Label} {stage : Stage} {left : Loc} (hasCall : Bool)
    (hleft : Readable stage left) :
    Steps bound pending stage (keepLeft left hasCall) (fun _ => pending)
      fun loc late => Readable late loc := by
  cases hasCall with
  | true =>
      refine steps_freshResult.bind fun early s₁ f₁ hearly => ?_
      exact (steps_copy (hleft.mono f₁) hearly).bind fun _ s₂ f₂ hassigned =>
        steps_pure ((hearly.mono f₂).readable hassigned)
  | false => exact steps_pure hleft

/-- Operators that evaluate both operands. -/
theorem steps_strict (op : BinaryOp) (hlhs : ExprSteps bound scope lhs)
    (hrhs : ExprSteps bound scope rhs) : ExprSteps bound scope (.binary (.strict op) lhs rhs) := by
  intro target pending stage hscope htarget
  rw [lowerExpr_strict]
  refine (steps_targetOrFresh htarget).bind fun dest s₁ f₁ hdest => ?_
  refine (hlhs (hscope.mono f₁) (noTarget s₁)).bind fun left s₂ f₂ hleft => ?_
  refine (steps_keepLeft rhs.hasCall hleft.1).bind fun left s₃ f₃ hleft => ?_
  refine (hrhs (hscope.mono (f₁.trans (f₂.trans f₃))) (noTarget s₃)).bind
    fun right s₄ f₄ hright => ?_
  have hdest' := hdest.1.mono (f₂.trans (f₃.trans f₄))
  have hsaved := (steps_saveBinary op (hleft.mono f₄) hright.1 hdest' :
    Steps bound pending s₄ _ _ _).delivered hdest' hdest.2
  simp only [bind_assoc] at hsaved
  exact hsaved

/-- The inverse of a condition is readable. -/
theorem steps_lowerInverse {pending : List Label} {stage : Stage} {dest : Loc}
    (hdest : Readable stage dest) :
    Steps bound pending stage (lowerInverse dest) (fun _ => pending)
      fun inverse late => Readable late inverse := by
  refine steps_freshResult.bind fun inverse s₁ f₁ hinverse => ?_
  have hsaved := (steps_saveUnary .not (hdest.mono f₁) hinverse :
    Steps bound pending s₁ _ _ _).bind fun _ s₂ f₂ hassigned =>
      (steps_pure ((hinverse.mono f₂).readable hassigned) :
        Steps bound pending s₂ (pure inverse) _ fun loc late => Readable late loc)
  simp only [bind_assoc] at hsaved
  exact hsaved

/-- A short-circuit operator: both operands come to one location, and the second one is
    skipped when what the test makes of the first one is zero. -/
theorem steps_shortCircuit {test : Loc → Lower Loc} {target : Option Loc} {pending : List Label}
    {stage : Stage} (hlhs : ExprSteps bound scope lhs) (hrhs : ExprSteps bound scope rhs)
    (htest : ∀ {dest pending stage}, Readable stage dest →
      Steps bound pending stage (test dest) (fun _ => pending) fun loc late => Readable late loc)
    (hscope : Scoped scope stage) (htarget : ∀ dest, target = some dest → Writable stage dest) :
    Steps bound pending stage (do
      let dest ← freshResult
      let done ← build (·.newLabel)
      let _ ← lowerExpr scope lhs (some dest)
      let tested ← test dest
      emit (·.branchIfZero tested done)
      let _ ← lowerExpr scope rhs (some dest)
      emit (·.label done)
      deliver dest target) (fun _ => pending) fun loc late => Delivered target loc late := by
  refine steps_freshResult.bind fun dest s₁ f₁ hdest => ?_
  -- the left operand is assigned wherever control comes to the end
  refine (steps_newLabel {loc | loc ∈ s₁.here ∨ loc = dest}).bind fun done s₂ f₂ hdone => ?_
  have hjoined : ∀ {late}, s₂.Follows late → dest ∈ late.here →
      {loc | loc ∈ s₁.here ∨ loc = dest} ⊆ late.here := by
    rintro late f hassigned loc (hloc | rfl)
    · exact (f₂.trans f).here hloc
    · exact hassigned
  have hinner : Steps bound (pending ++ [done]) s₂ (do
      let _ ← lowerExpr scope lhs (some dest)
      let tested ← test dest
      emit (·.branchIfZero tested done)
      lowerExpr scope rhs (some dest)) (fun _ => pending ++ [done])
      fun _ late => dest ∈ late.here := by
    refine (hlhs (hscope.mono (f₁.trans f₂)) (target_of_writable (hdest.mono f₂))).bind
      fun _ s₃ f₃ hleft => ?_
    have hassigned := hleft.2 dest rfl
    have hdest₃ := hdest.mono (f₂.trans f₃)
    have hdone₃ := (hdone.1.mono f₃.toKeeps).known (hjoined f₃ hassigned)
    refine (htest (hdest₃.readable hassigned)).bind fun tested s₄ f₄ htested => ?_
    refine (steps_branchIfZero htested (hdone₃.mono f₄)).bind fun _ s₅ f₅ _ => ?_
    have f : stage.Follows s₅ := f₁.trans (f₂.trans (f₃.trans (f₄.trans f₅)))
    exact (hrhs (hscope.mono f) (target_of_writable (hdest₃.mono (f₄.trans f₅)))).imp
      fun _ _ _ hright => hright.2 dest rfl
  have hbefore : s₂.here ⊆ {loc | loc ∈ s₁.here ∨ loc = dest} := by
    rw [hdone.2]
    exact fun loc hloc => Or.inl hloc
  have hclosed : Steps bound (pending ++ [done]) s₂ _ (fun _ => pending) _ :=
    hinner.thenLabel (fun _ => perm_last pending done) hdone.1 hbefore
      (fun _ _ f hassigned => hjoined f hassigned) fun _ _ late _ _ _ f hhere =>
        steps_deliver ((hdest.mono (f₂.trans f)).readable (hhere ▸ Or.inr rfl))
          (target_mono htarget (f₁.trans (f₂.trans f)))
  simp only [bind_assoc] at hclosed
  exact hclosed

/-- Conjunctions. -/
theorem steps_and (hlhs : ExprSteps bound scope lhs) (hrhs : ExprSteps bound scope rhs) :
    ExprSteps bound scope (.binary .and lhs rhs) := by
  intro target pending stage hscope htarget
  rw [lowerExpr]
  exact @steps_shortCircuit _ _ _ _ pure _ _ _ hlhs hrhs (fun hdest => steps_pure hdest) hscope
    htarget

/-- Disjunctions. -/
theorem steps_or (hlhs : ExprSteps bound scope lhs) (hrhs : ExprSteps bound scope rhs) :
    ExprSteps bound scope (.binary .or lhs rhs) := by
  intro target pending stage hscope htarget
  rw [lowerExpr]
  have hwhole : Steps bound pending stage _ _ _ :=
    steps_shortCircuit hlhs hrhs steps_lowerInverse hscope htarget
  simp only [lowerInverse, bind_assoc, pure_bind] at hwhole
  exact hwhole

/-- Unary operators. -/
theorem steps_unary (op : UnaryOp) {operand : Expr} (hoperand : ExprSteps bound scope operand) :
    ExprSteps bound scope (.unary op operand) := by
  intro target pending stage hscope htarget
  rw [lowerExpr]
  refine (steps_targetOrFresh htarget).bind fun dest s₁ f₁ hdest => ?_
  refine (hoperand (hscope.mono f₁) (noTarget s₁)).bind fun loc s₂ f₂ hloc => ?_
  have hdest' := hdest.1.mono f₂
  have hsaved := (steps_saveUnary op hloc.1 hdest' :
    Steps bound pending s₂ _ _ _).delivered hdest' hdest.2
  simp only [bind_assoc] at hsaved
  exact hsaved

end

mutual

/-- **EXPRESSIONS** are lowered by sound steps. -/
theorem steps_lowerExpr {scope : Scope} : ∀ expr : Expr, ExprSteps bound scope expr
  -- by recursion on the expression, one case for each form of it
  | .int value, target, pending, stage, hscope, htarget
  | .bool value, target, pending, stage, hscope, htarget => by
      rw [lowerExpr]
      exact (steps_constant _).bind fun loc mid hmid hloc =>
        steps_deliver hloc (target_mono htarget hmid)
  | .var name, target, pending, stage, hscope, htarget => by
      rw [lowerExpr]
      exact (steps_resolve hscope name).bind fun loc mid hmid hloc =>
        steps_deliver hloc.2 (target_mono htarget hmid)
  | .binary (.strict op) lhs rhs, target, pending, stage, hscope, htarget =>
      steps_strict op (steps_lowerExpr lhs) (steps_lowerExpr rhs) hscope htarget
  | .binary .and lhs rhs, target, pending, stage, hscope, htarget =>
      steps_and (steps_lowerExpr lhs) (steps_lowerExpr rhs) hscope htarget
  | .binary .or lhs rhs, target, pending, stage, hscope, htarget =>
      steps_or (steps_lowerExpr lhs) (steps_lowerExpr rhs) hscope htarget
  | .unary op operand, target, pending, stage, hscope, htarget =>
      steps_unary op (steps_lowerExpr operand) hscope htarget
  | .call call, target, pending, stage, hscope, htarget => by
      rw [lowerExpr]
      refine (steps_targetOrFresh htarget).bind fun dest s₁ f₁ hdest => ?_
      refine steps_lowerCall call (hscope.mono f₁) fun s₂ f₂ name args isExternal hname hargs => ?_
      have hdest' := hdest.1.mono f₂
      have hsaved := (steps_saveCall hname isExternal hargs hdest' :
        Steps bound pending s₂ _ _ _).delivered hdest' hdest.2
      simp only [bind_assoc] at hsaved
      exact hsaved

/-- A call is made by a statement. -/
theorem steps_lowerCall {scope : Scope} {β : Type} :
    ∀ (call : Call) {next : Inst → Lower β} {pending : List Label} {stage : Stage}
      {left : β → List Label} {post : β → Stage → Prop}, Scoped scope stage →
      (∀ late, stage.Follows late → ∀ (name : Symbol) (args : List Loc) (isExternal : Bool),
        late.symbols.Names name → (∀ loc ∈ args, Readable late loc) →
        Steps bound pending late (build (·.call name args isExternal) >>= next) left post) →
      Steps bound pending stage (lowerCall scope call >>= next) left post
  | .mk name args isCallout, next, pending, stage, left, post, hscope, hnext => by
      rw [lowerCall]
      simp only [bind_assoc]
      refine (steps_lowerArgs args hscope).bind fun locs s₁ f₁ hlocs => ?_
      refine (steps_intern name).bind fun symbol s₂ f₂ hname => ?_
      exact hnext s₂ (f₁.trans f₂) symbol locs isCallout hname
        fun loc hloc => (hlocs loc hloc).mono f₂

/-- **ARGUMENTS** are lowered by sound steps, and all of them are readable at the call. -/
theorem steps_lowerArgs {scope : Scope} :
    ∀ (args : List Arg) {pending : List Label} {stage : Stage}, Scoped scope stage →
      Steps bound pending stage (lowerArgs scope args) (fun _ => pending)
        fun locs late => ∀ loc ∈ locs, Readable late loc
  | [], pending, stage, hscope => by
      rw [lowerArgs]
      exact steps_pure fun _ h => by cases h
  | .text value :: rest, pending, stage, hscope => by
      rw [lowerArgs]
      refine (steps_intern value).bind fun symbol s₁ f₁ hname => ?_
      refine (steps_literal hname).bind fun loc s₂ f₂ hloc => ?_
      refine (steps_lowerArgs rest (hscope.mono (f₁.trans f₂))).bind fun locs s₃ f₃ hlocs => ?_
      exact steps_pure (List.forall_mem_cons.mpr ⟨hloc.mono f₃, hlocs⟩)
  | .expr (.var name) :: rest, pending, stage, hscope => by
      rw [lowerArgs]
      have hrest : ∀ {loc s}, stage.Follows s → Readable s loc →
          Steps bound pending s (do return loc :: (← lowerArgs scope rest)) (fun _ => pending)
            fun locs late => ∀ loc ∈ locs, Readable late loc := by
        intro loc s f hloc
        refine (steps_lowerArgs rest (hscope.mono f)).bind fun locs s' f' hlocs => ?_
        exact steps_pure (List.forall_mem_cons.mpr ⟨hloc.mono f', hlocs⟩)
      cases rest.any Arg.hasCall with
      | true =>
          refine steps_freshResult.bind fun early s₁ f₁ hearly => ?_
          refine (steps_resolve (hscope.mono f₁) name).bind fun loc s₂ f₂ hloc => ?_
          exact (steps_deliver hloc.2 (target_of_writable (hearly.mono f₂))).bind
            fun loc s₃ f₃ hloc => hrest (f₁.trans (f₂.trans f₃)) hloc.1
      | false =>
          exact (steps_resolve hscope name).bind fun loc s₁ f₁ hloc => hrest f₁ hloc.2
  | .expr (.int value) :: rest, pending, stage, hscope
  | .expr (.bool value) :: rest, pending, stage, hscope
  | .expr (.call call) :: rest, pending, stage, hscope
  | .expr (.binary op lhs rhs) :: rest, pending, stage, hscope
  | .expr (.unary op operand) :: rest, pending, stage, hscope => by
      rw [lowerArgs]
      · refine (steps_lowerExpr _ hscope (noTarget stage)).bind fun loc s₁ f₁ hloc => ?_
        refine (steps_lowerArgs rest (hscope.mono f₁)).bind fun locs s₂ f₂ hlocs => ?_
        exact steps_pure (List.forall_mem_cons.mpr ⟨hloc.1.mono f₂, hlocs⟩)
      · intro name h
        cases h

end

/-! ## Statements of the tree -/

/-- Declared variables are assigned zero and readable. -/
theorem steps_declare {zero : Loc} : ∀ (names : List String) (vars : List (String × Loc))
    {pending : List Label} {stage : Stage}, Readable stage zero →
    (∀ loc ∈ vars.map Prod.snd, Variable stage loc) →
    Steps bound pending stage (declare zero names vars) (fun _ => pending)
      fun opened late => ∀ loc ∈ opened.map Prod.snd, Variable late loc
  | [], vars, pending, stage, hzero, hvars => steps_pure hvars
  | name :: rest, vars, pending, stage, hzero, hvars => by
      rw [declare]
      refine (steps_intern name).bind fun symbol s₁ f₁ _ => ?_
      refine (steps_localVar symbol).bind fun loc s₂ f₂ hloc => ?_
      refine (steps_copy (hzero.mono (f₁.trans f₂)) hloc).bind fun _ s₃ f₃ hassigned => ?_
      have f : stage.Follows s₃ := f₁.trans (f₂.trans f₃)
      have hloc' := hloc.mono f₃
      exact steps_declare rest _ (hzero.mono f) (List.forall_mem_cons.mpr
        ⟨⟨hloc', hloc'.readable hassigned⟩, fun loc hloc => (hvars loc hloc).mono f⟩)

/-- A scope inside a loop. -/
theorem Scoped.within {scope : Scope} {stage : Stage} (h : Scoped scope stage) {next done : Label}
    (hnext : Known stage next) (hdone : Known stage done) :
    Scoped { scope with loop := some ⟨next, done⟩ } stage := by
  refine ⟨h.vars, ?_⟩
  rintro exits hexits
  cases hexits
  exact ⟨hnext, hdone⟩

/-- What is said of the code of a block, wherever it is lowered. -/
def BlockSteps (bound : Nat) (block : Source.Block) : Prop :=
  ∀ {scope : Scope} {pending : List Label} {stage : Stage}, Scoped scope stage →
    Steps bound pending stage (lowerBlock scope block) (fun _ => pending) fun _ _ => True

section

variable {scope : Scope} {pending : List Label} {stage : Stage}

/-- A location is combined with an operand. -/
theorem steps_lowerOperated (op : BinaryOp) {dest right : Loc} (hdest : Variable stage dest)
    (hright : Readable stage right) :
    Steps bound pending stage (lowerOperated op dest right) (fun _ => pending) fun _ _ => True :=
  (steps_saveBinary op hdest.2 hright hdest.1).imp fun _ _ _ _ => trivial

/-- The update of a variable. -/
theorem steps_update (op : BinaryOp) (target : String) (value : Expr)
    (hscope : Scoped scope stage) :
    Steps bound pending stage (do
      let dest ← resolve scope target
      let right ← lowerExpr scope value none
      lowerOperated op dest right) (fun _ => pending) fun _ _ => True := by
  refine (steps_resolve hscope target).bind fun dest s₁ f₁ hdest => ?_
  refine (steps_lowerExpr value (hscope.mono f₁) (noTarget s₁)).bind fun right s₂ f₂ hright => ?_
  exact steps_lowerOperated op (hdest.mono f₂) hright.1

/-! ### Conditionals -/

/-- A condition without an alternative. -/
theorem steps_if (cond : Expr) {thenBlock : Source.Block} (hthen : BlockSteps bound thenBlock)
    (hscope : Scoped scope stage) :
    Steps bound pending stage (lowerStmt scope (.cond cond thenBlock none)) (fun _ => pending)
      fun _ _ => True := by
  rw [lowerStmt]
  refine (steps_lowerExpr cond hscope (noTarget stage)).bind fun test s₁ f₁ htest => ?_
  refine (steps_newLabel s₁.here).bind fun done s₂ f₂ hdone => ?_
  have hinner : Steps bound (pending ++ [done]) s₂ (do
      emit (·.branchIfZero test done)
      lowerBlock scope thenBlock) (fun _ => pending ++ [done]) fun _ _ => True :=
    (steps_branchIfZero (htest.1.mono f₂) (hdone.1.known f₂.here)).bind fun _ s₃ f₃ _ =>
      hthen (hscope.mono (f₁.trans (f₂.trans f₃)))
  have hclosed := hinner.endLabel (fun _ => perm_last pending done) (hdone.2.symm ▸ hdone.1)
  simp only [bind_assoc] at hclosed
  exact hclosed

/-- A condition with an alternative. -/
theorem steps_ifElse (cond : Expr) {thenBlock elseBlock : Source.Block}
    (hthen : BlockSteps bound thenBlock) (helse : BlockSteps bound elseBlock)
    (hscope : Scoped scope stage) :
    Steps bound pending stage (lowerStmt scope (.cond cond thenBlock (some elseBlock)))
      (fun _ => pending) fun _ _ => True := by
  rw [lowerStmt]
  refine (steps_lowerExpr cond hscope (noTarget stage)).bind fun test s₁ f₁ htest => ?_
  refine (steps_newLabel s₁.here).bind fun otherwise s₂ f₂ hotherwise => ?_
  -- the label behind both branches is made at the end of the first one
  have hinner : Steps bound (pending ++ [otherwise]) s₂ (do
      emit (·.branchIfZero test otherwise)
      lowerBlock scope thenBlock
      let done ← build (·.newLabel)
      emit (·.jump done)
      return done) (fun done => pending ++ [otherwise] ++ [done])
      fun done late => Chosen late done s₁.here := by
    refine (steps_branchIfZero (htest.1.mono f₂) (hotherwise.1.known f₂.here)).bind
      fun _ s₃ f₃ _ => ?_
    refine (hthen (hscope.mono (f₁.trans (f₂.trans f₃)))).bind fun _ s₄ f₄ _ => ?_
    refine (steps_newLabel s₁.here).bind fun done s₅ f₅ hdone => ?_
    have f : s₁.Follows s₅ := f₂.trans (f₃.trans (f₄.trans f₅))
    refine (steps_jump (hdone.1.known f.here)).bind fun _ s₆ f₆ _ => ?_
    exact @steps_return _ _ _ done (fun done => pending ++ [otherwise] ++ [done])
      (fun done late => Chosen late done s₁.here) (hdone.1.mono f₆.toKeeps)
  have hclosed := hinner.thenLabel (fun done => perm_first pending otherwise done) hotherwise.1
    hotherwise.2.subset (fun _ mid f _ => (f₂.trans f).here)
    fun done mid late f hdone k f' hhere => (helse (hscope.mono (f₁.trans (f₂.trans f')))).endLabel
      (fun _ => perm_last pending done) (hhere.symm ▸ hdone.mono k)
  simp only [bind_assoc, pure_bind] at hclosed
  exact hclosed

/-! ### Loops -/

/-- **WHILE LOOPS** are lowered by sound steps. -/
theorem steps_while (cond : Expr) {body : Source.Block} (hbody : BlockSteps bound body)
    (hscope : Scoped scope stage) :
    Steps bound pending stage (lowerStmt scope (.whileLoop cond body)) (fun _ => pending)
      fun _ _ => True := by
  rw [lowerStmt]
  refine (steps_newLabel stage.here).bind fun top s₁ f₁ htop => ?_
  refine (steps_newLabel stage.here).bind fun done s₂ f₂ hdone => ?_
  have htop₂ : Chosen s₂ top stage.here := htop.1.mono f₂.toKeeps
  have hhere₂ : s₂.here = stage.here := hdone.2.trans htop.2
  refine (steps_label (perm_first pending top done) (htop₂.2.trans hhere₂.symm)).bind
    fun _ s₃ f₃ hhere₃ => ?_
  have f : stage.Follows s₃ := f₁.trans (f₂.trans f₃)
  have hdone₃ : Chosen s₃ done stage.here := hdone.1.mono f₃.toKeeps
  have hleave : Known s₃ done := hdone₃.known f.here
  have hagain : Known s₃ top := (htop₂.mono f₃.toKeeps).known f.here
  have hinner : Steps bound (pending ++ [done]) s₃ (do
      let test ← lowerExpr scope cond none
      emit (·.branchIfZero test done)
      -- inside of the loop its two labels are known, and what is assigned in front of it
      lowerBlock { scope with loop := some ⟨top, done⟩ } body
      emit (·.jump top)) (fun _ => pending ++ [done]) fun _ _ => True := by
    refine (steps_lowerExpr cond (hscope.mono f) (noTarget s₃)).bind fun test s₄ f₄ htest => ?_
    refine (steps_branchIfZero htest.1 (hleave.mono f₄)).bind fun _ s₅ f₅ _ => ?_
    have g : s₃.Follows s₅ := f₄.trans f₅
    refine (hbody ((hscope.mono (f.trans g)).within (hagain.mono g) (hleave.mono g))).bind
      fun _ s₆ f₆ _ => ?_
    exact steps_jump (hagain.mono (g.trans f₆))
  have hclosed := hinner.endLabel (fun _ => perm_last pending done)
    ((hhere₃.trans hhere₂).symm ▸ hdone₃)
  simp only [bind_assoc] at hclosed
  exact hclosed

/-- The test of a counting loop. -/
theorem steps_lowerLess {counter limit : Loc} {done : Label} (hcounter : Readable stage counter)
    (hlimit : Readable stage limit) (hdone : Known stage done) :
    Steps bound pending stage (lowerLess counter limit done) (fun _ => pending)
      fun _ _ => True := by
  refine steps_freshResult.bind fun test s₁ f₁ htest => ?_
  have htested := (steps_saveBinary .lt (hcounter.mono f₁) (hlimit.mono f₁) htest :
    Steps bound pending s₁ _ _ _).bind fun _ s₂ f₂ hassigned =>
      (steps_branchIfZero ((htest.mono f₂).readable hassigned) (hdone.mono (f₁.trans f₂)) :
        Steps bound pending s₂ _ _ _)
  simp only [bind_assoc] at htested
  exact htested

/-- The advance of a counting loop. -/
theorem steps_lowerNext {counter : Loc} {top : Label} (hcounter : Variable stage counter)
    (htop : Known stage top) :
    Steps bound pending stage (lowerNext counter top) (fun _ => pending) fun _ _ => True := by
  refine (steps_constant 1).bind fun one s₁ f₁ hone => ?_
  refine (steps_lowerOperated .add (hcounter.mono f₁) hone).bind fun _ s₂ f₂ _ => ?_
  exact steps_jump (htop.mono (f₁.trans f₂))

/-- **COUNTING LOOPS** are lowered by sound steps. -/
theorem steps_lowerCounting {counter limit : Loc} {body : Source.Block}
    (hbody : BlockSteps bound body) (hscope : Scoped scope stage)
    (hcounter : Variable stage counter) (hlimit : Readable stage limit) :
    Steps bound pending stage (lowerCounting scope counter limit body) (fun _ => pending)
      fun _ _ => True := by
  rw [lowerCounting]
  refine (steps_newLabel stage.here).bind fun top s₁ f₁ htop => ?_
  refine (steps_newLabel stage.here).bind fun next s₂ f₂ hnext => ?_
  refine (steps_newLabel stage.here).bind fun done s₃ f₃ hdone => ?_
  have htop₃ : Chosen s₃ top stage.here := htop.1.mono (f₂.trans f₃).toKeeps
  have hhere₃ : s₃.here = stage.here := hdone.2.trans (hnext.2.trans htop.2)
  have hfirst : (pending ++ [top] ++ [next] ++ [done]).Perm
      (top :: (pending ++ [next] ++ [done])) := by
    simp only [List.append_assoc]
    exact List.perm_middle
  refine (steps_label hfirst (htop₃.2.trans hhere₃.symm)).bind fun _ s₄ f₄ hhere₄ => ?_
  have f : stage.Follows s₄ := f₁.trans (f₂.trans (f₃.trans f₄))
  have hnext₄ : Chosen s₄ next stage.here := hnext.1.mono (f₃.trans f₄).toKeeps
  have hdone₄ : Chosen s₄ done stage.here := hdone.1.mono f₄.toKeeps
  have hagain : Known s₄ top := (htop₃.mono f₄.toKeeps).known f.here
  have hskip : Known s₄ next := hnext₄.known f.here
  have hleave : Known s₄ done := hdone₄.known f.here
  -- the body may end at the label of the next round, where nothing more is assigned
  have hround : Steps bound (pending ++ [next] ++ [done]) s₄ (do
      lowerLess counter limit done
      lowerBlock { scope with loop := some ⟨next, done⟩ } body)
      (fun _ => pending ++ [next] ++ [done]) fun _ _ => True :=
    (steps_lowerLess (hcounter.2.mono f) (hlimit.mono f) hleave).bind fun _ s₅ f₅ _ =>
      hbody ((hscope.mono (f.trans f₅)).within (hskip.mono f₅) (hleave.mono f₅))
  have hadvanced : Steps bound (pending ++ [next] ++ [done]) s₄ _ (fun _ => pending ++ [done])
      fun _ _ => True :=
    hround.thenLabel (fun _ => perm_first pending next done) hnext₄
      (hhere₄.trans hhere₃).subset (fun _ _ g _ => (f.trans g).here) fun _ _ late _ _ _ g _ =>
        steps_lowerNext (hcounter.mono (f.trans g)) (hagain.mono g)
  have hclosed := hadvanced.endLabel (fun _ => perm_last pending done)
    ((hhere₄.trans hhere₃).symm ▸ hdone₄)
  simp only [lowerLess, lowerNext, lowerOperated, bind_assoc] at hclosed
  exact hclosed

/-- A counting loop assigns its variable and its limit before it starts. -/
theorem steps_for (var : String) (start stop : Expr) {body : Source.Block}
    (hbody : BlockSteps bound body) (hscope : Scoped scope stage) :
    Steps bound pending stage (lowerStmt scope (.forLoop var start stop body)) (fun _ => pending)
      fun _ _ => True := by
  rw [lowerStmt_forLoop]
  refine (steps_resolve hscope var).bind fun counter s₁ f₁ hcounter => ?_
  refine steps_freshResult.bind fun limit s₂ f₂ hlimit => ?_
  refine (steps_lowerExpr start (hscope.mono (f₁.trans f₂))
    (target_of_writable (hcounter.1.mono f₂))).bind fun _ s₃ f₃ _ => ?_
  refine (steps_lowerExpr stop (hscope.mono (f₁.trans (f₂.trans f₃)))
    (target_of_writable (hlimit.mono f₃))).bind fun _ s₄ f₄ hstop => ?_
  exact steps_lowerCounting hbody (hscope.mono (f₁.trans (f₂.trans (f₃.trans f₄))))
    (hcounter.mono (f₂.trans (f₃.trans f₄)))
    ((hlimit.mono (f₃.trans f₄)).readable (hstop.2 limit rfl))

end

/-! ### All statements and blocks -/

mutual

/-- **STATEMENTS** are lowered by sound steps. -/
theorem steps_lowerStmt {scope : Scope} : ∀ (stmt : Stmt) {pending : List Label} {stage : Stage},
    Scoped scope stage →
    Steps bound pending stage (lowerStmt scope stmt) (fun _ => pending) fun _ _ => True
  -- by recursion on the statement; a jump out of no loop lowers to nothing
  | .assign target .assign value, pending, stage, hscope => by
      rw [lowerStmt]
      refine (steps_resolve hscope target).bind fun dest s₁ f₁ hdest => ?_
      exact (steps_lowerExpr value (hscope.mono f₁) (target_of_writable hdest.1)).bind
        fun _ _ _ _ => steps_pure trivial
  | .assign target .addAssign value, pending, stage, hscope => by
      rw [lowerStmt]
      exact steps_update .add target value hscope
  | .assign target .subAssign value, pending, stage, hscope => by
      rw [lowerStmt]
      exact steps_update .sub target value hscope
  | .call call, pending, stage, hscope => by
      rw [lowerStmt]
      exact steps_lowerCall call hscope fun _ _ name args isExternal hname hargs =>
        steps_callStmt hname isExternal hargs
  | .cond cond thenBlock none, pending, stage, hscope =>
      steps_if cond (steps_lowerBlock thenBlock) hscope
  | .cond cond thenBlock (some elseBlock), pending, stage, hscope =>
      steps_ifElse cond (steps_lowerBlock thenBlock) (steps_lowerBlock elseBlock) hscope
  | .whileLoop cond body, pending, stage, hscope =>
      steps_while cond (steps_lowerBlock body) hscope
  | .forLoop var start stop body, pending, stage, hscope =>
      steps_for var start stop (steps_lowerBlock body) hscope
  | .ret none, pending, stage, hscope => by
      rw [lowerStmt]
      exact steps_ret fun _ h => by cases h
  | .ret (some value), pending, stage, hscope => by
      rw [lowerStmt]
      refine (steps_lowerExpr value hscope (noTarget stage)).bind fun loc s₁ f₁ hloc => ?_
      exact steps_ret fun _ h => Option.some.inj h ▸ hloc.1
  | .breakLoop, pending, stage, hscope => by
      rw [lowerStmt]
      cases hloop : scope.loop with
      | some exits => exact steps_jump (hscope.loop exits hloop).2
      | none => exact steps_pure trivial
  | .continueLoop, pending, stage, hscope => by
      rw [lowerStmt]
      cases hloop : scope.loop with
      | some exits => exact steps_jump (hscope.loop exits hloop).1
      | none => exact steps_pure trivial
  | .block block, pending, stage, hscope => by
      rw [lowerStmt]
      exact steps_lowerBlock block hscope

/-- **BLOCKS** are lowered by sound steps. -/
theorem steps_lowerBlock : ∀ block : Source.Block, BlockSteps bound block
  | .mk locals stmts, scope, pending, stage, hscope => by
      rw [lowerBlock]
      refine (steps_constant 0).bind fun zero s₁ f₁ hzero => ?_
      refine (steps_declare locals scope.vars hzero
        fun loc hloc => (hscope.vars loc hloc).mono f₁).bind fun vars s₂ f₂ hvars => ?_
      exact steps_lowerStmts stmts ⟨hvars, (hscope.mono (f₁.trans f₂)).loop⟩

/-- A list of statements is lowered by sound steps. -/
theorem steps_lowerStmts {scope : Scope} : ∀ (stmts : List Stmt) {pending : List Label}
    {stage : Stage}, Scoped scope stage →
    Steps bound pending stage (lowerStmts scope stmts) (fun _ => pending) fun _ _ => True
  | [], pending, stage, hscope => by
      rw [lowerStmts]
      exact steps_pure trivial
  | stmt :: rest, pending, stage, hscope => by
      rw [lowerStmts]
      exact (steps_lowerStmt stmt hscope).bind fun _ s₁ f₁ _ =>
        steps_lowerStmts rest (hscope.mono f₁)

end

/-! ## Methods -/

/-- The parameters are declared, and each of them is counted. -/
theorem steps_declareParams : ∀ (names : List String) (vars : List (String × Loc))
    {pending : List Label} {stage : Stage},
    stage.body.params.length + names.length ≤ bound →
    (∀ loc ∈ vars.map Prod.snd, Variable stage loc) →
    Steps bound pending stage (declareParams names vars) (fun _ => pending)
      fun opened late => (∀ loc ∈ opened.map Prod.snd, Variable late loc) ∧
        late.body.params.length = stage.body.params.length + names.length
  | [], vars, pending, stage, hbound, hvars => steps_pure ⟨hvars, rfl⟩
  | name :: rest, vars, pending, stage, hbound, hvars => by
      rw [declareParams]
      rw [List.length_cons] at hbound ⊢
      refine Steps.bind (steps_aside rfl SymbolPool.find?_intern_of_some rfl :
        Steps bound pending stage (intern name) _
          fun _ late => late.body.params = stage.body.params)
        fun symbol s₁ f₁ hsame => ?_
      refine (steps_param symbol (by rw [hsame]; omega)).bind fun loc s₂ f₂ hparam => ?_
      have hlength : s₂.body.params.length = stage.body.params.length + 1 := by
        rw [hparam.2, hsame]
      have hvars₂ : ∀ other ∈ ((name, loc) :: vars).map Prod.snd, Variable s₂ other :=
        List.forall_mem_cons.mpr ⟨hparam.1, fun loc hloc => (hvars loc hloc).mono (f₁.trans f₂)⟩
      exact (steps_declareParams rest _ (by omega) hvars₂).imp fun opened late _ hopened =>
        ⟨hopened.1, by omega⟩

/-- The stage at which the lowering of a method starts: nothing is assigned. -/
def start (symbols : SymbolPool) (method : Method) : Stage :=
  ⟨initial symbols method, ⟨fun _ => ∅, ∅⟩⟩

/-- The empty body is sound. -/
theorem start_sound (symbols : SymbolPool) (method : Method) :
    (start symbols method).Sound bound [] where
  builder :=
    { tidy := tidy_initial symbols method
      unbound := rfl
      noTemp := fun _ h => by cases h
      interned := fun h => by cases h
      commands := fun _ h => by cases h
      distinct := List.Pairwise.nil
      owned := fun _ h => by cases h
      enders := fun h => by
        have hnil : ([] : List Inst) = _ := h
        exact absurd hnil (by simp)
      falls := fun h => by cases h
      labelled := fun h => by cases h
      placed := fun h => by cases h }
  named h := by cases h
  called h := by cases h
  settled _ h := absurd h (Nat.not_lt_zero _)
  unplaced _ h := by cases h
  distinct := List.Pairwise.nil
  assigns :=
    ⟨fun _ => ∅,
      { entry := rfl
        stmts := fun h => by
          have hnil : ([] : List Inst) = _ := h
          exact absurd hnil (by simp)
        labels := fun h => by cases h
        falls := fun h => absurd h (Nat.not_lt_zero _)
        here := Set.empty_subset _ }⟩

/-- Control does not leave the end of a finished body. -/
theorem ending_lowerEnd (method : Method) {state : State} (h : state.builder.Sound bound) :
    ∃ stmt command, (lowerEnd method state).2.builder.body.lastStmt? = some stmt ∧
      (lowerEnd method state).2.builder.body.command? stmt = some command ∧
      command.isTerminator = true := by
  rw [lowerEnd_apply]
  cases hterminated : state.builder.isTerminated with
  | true =>
      rw [Builder.isTerminated, Bool.and_eq_true] at hterminated
      cases hlast : state.builder.body.lastStmt? with
      | none =>
          rw [hlast] at hterminated
          cases hterminated.2
      | some stmt =>
          rw [hlast, Option.bind_some] at hterminated
          obtain ⟨command, hcommand, -⟩ := h.commands stmt (Body.lastStmt?_mem hlast)
          obtain ⟨record, hrecord, -, -, -, hsame⟩ := Body.record_command hcommand
          rw [hrecord] at hterminated
          exact ⟨stmt, command, hlast, hcommand, hsame ▸ hterminated.2⟩
  | false =>
      have hlast : ∀ record : Record, ((state.builder.append record).2).body.lastStmt? =
          some ⟨state.builder.body.records.size⟩ := fun record =>
        Builder.place_lastStmt? (Builder.atEnd_create h.tidy.atEnd record) _ _
      have hrecord : ∀ record : Record,
          (state.builder.append record).2.body.records[state.builder.body.records.size]? =
            some record := by
        intro record
        show (Builder.place _ _ _).body.records[_]? = _
        rw [Builder.place_records]
        exact Body.records_create record
      cases method.returnsValue with
      | true =>
          exact ⟨_, .exit missingReturnCode, hlast _, Body.command?_eq_some.mpr (hrecord _), rfl⟩
      | false => exact ⟨_, .ret none, hlast _, Body.command?_eq_some.mpr (hrecord _), rfl⟩

/-- The end of a method closes its body. -/
theorem steps_lowerEnd (method : Method) {stage : Stage} :
    Steps bound [] stage (lowerEnd method) (fun _ => []) fun _ _ => True := by
  intro h
  rw [lowerEnd_apply]
  cases stage.builder.isTerminated with
  | true => exact ⟨stage, rfl, Stage.Follows.refl stage, h, trivial⟩
  | false =>
      cases method.returnsValue with
      | true => exact steps_exit missingReturnCode h
      | false => exact @steps_ret _ _ _ none (fun _ h => by cases h) h

/-- **LOWERING IS SOUND**: all labels are placed, control does not leave the end,
    and every parameter is declared. -/
theorem finished_sound (symbols : SymbolPool) (method : Method) :
    ∃ stage : Stage, stage.state = finished symbols method ∧
      stage.Sound method.params.length [] ∧ (start symbols method).Keeps stage ∧
      method.params.length ≤ stage.body.params.length ∧
      ∃ stmt command, stage.body.lastStmt? = some stmt ∧ stage.body.command? stmt = some command ∧
        command.isTerminator = true := by
  obtain ⟨s₁, e₁, f₁, h₁, hvars, hparams⟩ := steps_declareParams method.params []
    (by show 0 + _ ≤ _; rw [Nat.zero_add]) (fun _ h => by cases h) (start_sound symbols method)
  obtain ⟨s₂, e₂, f₂, h₂, -⟩ := @steps_lowerBlock _ method.body ⟨_, none⟩ _ _
    ⟨hvars, fun _ h => by cases h⟩ h₁
  obtain ⟨s₃, e₃, f₃, h₃, -⟩ := steps_lowerEnd method h₂
  have hending := ending_lowerEnd method h₂.builder
  rw [← e₃] at hending
  refine ⟨s₃, ?_, h₃, (f₁.trans (f₂.trans f₃)).toKeeps, ?_, hending⟩
  · rw [e₃, e₂, e₁]
    rfl
  · have hdeclared : s₁.body.params.length = method.params.length :=
      hparams.trans (Nat.zero_add _)
    exact hdeclared ▸ (f₂.trans f₃).arity

/-- The stage at which the lowering of a method ends. -/
structure Finished (symbols : SymbolPool) (method : Method) (stage : Stage) : Prop where
  body : stage.body = (lowerMethod symbols method).1
  pool : stage.symbols = (lowerMethod symbols method).2
  sound : stage.Sound method.params.length []
  keeps : (start symbols method).Keeps stage
  arity : method.params.length ≤ stage.body.params.length
  regular : stage.body.Regular

/-- **EVERY METHOD** is lowered to a finished body. -/
theorem lowerMethod_finished (symbols : SymbolPool) (method : Method) :
    ∃ stage, Finished symbols method stage := by
  obtain ⟨stage, hstate, hsound, hkeeps, hparams, hending⟩ := finished_sound symbols method
  obtain ⟨hbody, hsymbols⟩ := finished_eq symbols method
  refine ⟨stage, ?_, ?_, hsound, hkeeps, hparams, hsound.builder.regular (fun i hi => ?_) hending⟩
  · rw [hbody, ← hstate]
  · rw [hsymbols, ← hstate]
  · rcases hsound.settled i hi with hplaced | ⟨label, hlabel, -⟩
    · exact hplaced
    · cases hlabel

/-- **LOWERED BODIES ARE REGULAR.** -/
theorem lowerMethod_regular (symbols : SymbolPool) (method : Method) :
    (lowerMethod symbols method).1.Regular := by
  obtain ⟨stage, h⟩ := lowerMethod_finished symbols method
  exact h.body ▸ h.regular

/-- **LOWERED BODIES ARE INITIALIZED**: no variable is read before it is saved. -/
theorem lowerMethod_initialized (symbols : SymbolPool) (method : Method) :
    (lowerMethod symbols method).1.Initialized := by
  obtain ⟨stage, h⟩ := lowerMethod_finished symbols method
  obtain ⟨entering, hassigns⟩ := h.sound.assigns
  rw [← h.body]
  exact hassigns.initialized h.sound.builder.tidy.atEnd h.regular.wellFormed

/-- **LOWERED BODIES ARE FIT** for emission. -/
theorem lowerMethod_fit (symbols : SymbolPool) (method : Method)
    (hparams : method.params.length ≤ 2147483648) : (lowerMethod symbols method).1.Fit := by
  obtain ⟨stage, h⟩ := lowerMethod_finished symbols method
  exact h.body ▸ h.sound.builder.fit hparams h.regular

/-- Lowering makes no temporary locations. -/
theorem lowerMethod_hasNoTemp (symbols : SymbolPool) (method : Method) :
    (lowerMethod symbols method).1.HasNoTemp := by
  obtain ⟨stage, h⟩ := lowerMethod_finished symbols method
  exact h.body ▸ h.sound.builder.noTemp

/-- The fields of a lowered body are named by the symbols that lowering gives. -/
theorem lowerMethod_names (symbols : SymbolPool) (method : Method) {i : Nat} {name : Symbol}
    (hfield : (lowerMethod symbols method).1.locations[i]? = some (.global name)) :
    (lowerMethod symbols method).2.Names name := by
  obtain ⟨stage, h⟩ := lowerMethod_finished symbols method
  rw [← h.body] at hfield
  rw [← h.pool]
  exact h.sound.named hfield rfl

end DecafBackend.Lowering
