import DecafBackend.Proofs.BodyEdits

/-! # Runs that agree

    A command does the same in two bodies, if what it reads has the same
    contents.  A write changes the location it is for only, since fields of
    different names are different locations.

    * `Separates` — different fields have different names
    * `read_write_same`, `read_write_other` — reading behind a write
    * `Agrees`, `evaluateValue_agrees` — values computed side by side
    * `Abreast`, `perform_abreast` — statements that write no location, side by side -/

namespace DecafBackend

/-- Renaming every location to itself is no change. -/
theorem Value.mapLocs_id (value : Value) : value.mapLocs id = value := by
  cases value <;> simp [mapLocs]

/-- The fields of a body have names of their own. -/
def Setting.Separates (setting : Setting) (body : Body) : Prop :=
  ∀ {a b : Symbol} {i j : Nat}, body.locations[i]? = some (.global a) →
    body.locations[j]? = some (.global b) → setting.field a = setting.field b → a = b

namespace Body

variable {setting : Setting} {body body' : Body}

/-! ## Reads and writes -/

/-- A body with the same location reads the same there. -/
theorem read_congr {store : Store} {loc : Loc}
    (h : body'.locations[loc.index]? = body.locations[loc.index]?) :
    body'.read setting store loc = body.read setting store loc := by
  rw [read, read, h]

/-- A body with the same location writes the same there. -/
theorem write_congr {store : Store} {loc : Loc} {word : Word}
    (h : body'.locations[loc.index]? = body.locations[loc.index]?) :
    body'.write setting store loc word = body.write setting store loc word := by
  rw [write, write, h]

/-- Locations that can be written are written. -/
theorem write_ok {loc : Loc} {location : Location} (h : body.locations[loc.index]? = some location)
    (hwritable : location.isWritable = true) (store : Store) (word : Word) :
    ∃ store', body.write setting store loc word = some store' := by
  rw [write, h]
  cases location with
  | global name => exact ⟨_, rfl⟩
  | localVar name => exact ⟨_, rfl⟩
  | temp => exact ⟨_, rfl⟩
  | constant | literal => cases hwritable

/-- What was written is read back. -/
theorem read_write_same {store store' : Store} {loc : Loc} {word : Word}
    (h : body.write setting store loc word = some store') :
    body.read setting store' loc = some word := by
  obtain ⟨location, hlocation, hwrite⟩ := Option.bind_eq_some_iff.mp h
  rw [read, hlocation]
  cases location with
  | global name =>
      cases hwrite
      exact congrArg some (if_pos rfl)
  | localVar name =>
      cases hwrite
      exact Store.setLocal_locals_same _ _ _
  | temp =>
      cases hwrite
      exact Store.setLocal_locals_same _ _ _
  | constant | literal => cases hwrite

/-- A write leaves all other locations as they are. -/
theorem read_write_other (wf : WellFormed body) (hfields : setting.Separates body)
    {store store' : Store} {loc other : Loc} {word : Word}
    (h : body.write setting store loc word = some store') (hne : other ≠ loc) :
    body.read setting store' other = body.read setting store other := by
  obtain ⟨location, hlocation, hwrite⟩ := Option.bind_eq_some_iff.mp h
  rw [read, read]
  cases hplace : body.locations[other.index]? with
  | none => rfl
  | some place =>
      have hindex : other.index ≠ loc.index := by
        intro heq
        obtain ⟨i⟩ := other
        obtain ⟨j⟩ := loc
        exact hne (congrArg Key.mk heq)
      cases location with
      | global name =>
          cases hwrite
          cases place with
          | global name' =>
              -- two locations with one field would be one location
              refine congrArg some (if_neg fun heq => hindex ?_)
              have hname := hfields hplace hlocation heq
              rw [← hname] at hlocation
              exact wf.interned hplace hlocation rfl
          | localVar | temp | constant | literal => rfl
      -- a local variable and a field do not share their storage, whatever their names are
      | localVar name =>
          cases hwrite
          cases place with
          | localVar | temp => exact Store.setLocal_locals_other hne _ _
          | global | constant | literal => rfl
      | temp =>
          cases hwrite
          cases place with
          | localVar | temp => exact Store.setLocal_locals_other hne _ _
          | global | constant | literal => rfl
      | constant | literal => cases hwrite

/-- A change of the fields leaves all other locations as they are. -/
theorem read_globals {store : Store} {loc : Loc} (h : body.isGlobal loc = .ok false)
    (globals : Globals) :
    body.read setting { store with globals } loc = body.read setting store loc := by
  rw [read, read]
  cases hplace : body.locations[loc.index]? with
  | none => rfl
  | some place =>
      have hlocal : place.isGlobal = false := by
        rw [isGlobal, location, hplace] at h
        exact Except.ok.inj h
      cases place with
      | global => cases hlocal
      | localVar | temp | constant | literal => rfl

/-! ## Values -/

/-- Two evaluations that come to the same, up to the variables of the method. -/
inductive Agrees (store store' : Store) : Except Ending Reached → Except Ending Reached → Prop
  /-- Both end. -/
  | error (ending : Ending) : Agrees store store' (.error ending) (.error ending)
  /-- Both give a value. -/
  | ok (value : Word) (globals : Globals) (calls : List CallEvent) :
      Agrees store store' (.ok ⟨value, { store with globals }, calls⟩)
        (.ok ⟨value, { store' with globals }, calls⟩)

/-- Stores with the same fields agree on a value that makes no call. -/
theorem agrees_same {store store' : Store} (hglobals : store'.globals = store.globals)
    (value : Word) (calls : List CallEvent) :
    Agrees store store' (.ok ⟨value, store, calls⟩) (.ok ⟨value, store', calls⟩) := by
  have h : Agrees store store' (.ok ⟨value, { store with globals := store.globals }, calls⟩)
      (.ok ⟨value, { store' with globals := store.globals }, calls⟩) := .ok _ _ _
  rw [show ({ store' with globals := store.globals } : Store) = store' by rw [← hglobals]] at h
  exact h

/-- Arguments that are read alike one by one are read alike together. -/
theorem mapM_read_congr {store store' : Store} {args : List Loc} {f : Loc → Loc}
    (h : ∀ loc ∈ args, body'.read setting store' (f loc) = body.read setting store loc) :
    (args.map f).mapM (body'.read setting store') = args.mapM (body.read setting store) := by
  induction args with
  | nil => rfl
  | cons loc args ih =>
      rw [List.map_cons, List.mapM_cons, List.mapM_cons, h loc List.mem_cons_self,
        ih fun other hother => h other (List.mem_cons_of_mem _ hother)]

/-- A call with the same arguments comes to the same. -/
theorem callOut_agrees {store store' : Store} (hglobals : store'.globals = store.globals)
    {f : Loc → Loc} {args : List Loc}
    (h : ∀ loc ∈ args, body'.read setting store' (f loc) = body.read setting store loc)
    (calls : List CallEvent) (target : Symbol) :
    Agrees store store' (body.callOut setting store calls target args)
      (body'.callOut setting store' calls target (args.map f)) := by
  rw [callOut, callOut, mapM_read_congr h]
  cases args.mapM (body.read setting store) with
  | none =>
      rw [hglobals]
      exact .error _
  | some words =>
      simp only [callWith, hglobals]
      cases (setting.environment
        (⟨setting.routine target, words, store.globals⟩ :: calls)).result with
      | ok value => exact .ok _ _ _
      | error abort => exact .error _

/-- A value that reads the same comes to the same. -/
theorem evaluateValue_agrees {store store' : Store} (hglobals : store'.globals = store.globals)
    {f : Loc → Loc} {value : Value}
    (h : ∀ access ∈ value.reads,
      body'.read setting store' (f access.loc) = body.read setting store access.loc)
    (calls : List CallEvent) :
    Agrees store store' (body.evaluateValue setting store calls value)
      (body'.evaluateValue setting store' calls (value.mapLocs f)) := by
  cases value with
  | load src =>
      simp only [Value.mapLocs, evaluateValue, h src List.mem_cons_self]
      cases body.read setting store src.loc with
      | some word => exact agrees_same hglobals word calls
      | none => rw [hglobals]; exact .error _
  | param inst index => exact agrees_same hglobals _ calls
  | unary inst op operand =>
      simp only [Value.mapLocs, evaluateValue, h operand List.mem_cons_self]
      cases body.read setting store operand.loc with
      | some word => exact agrees_same hglobals _ calls
      | none => rw [hglobals]; exact .error _
  | binary inst op lhs rhs =>
      simp only [Value.mapLocs, evaluateValue, h lhs List.mem_cons_self,
        h rhs (List.mem_cons_of_mem _ List.mem_cons_self)]
      cases body.read setting store lhs.loc with
      | none => rw [hglobals]; exact .error _
      | some a =>
          cases body.read setting store rhs.loc with
          | none => rw [hglobals]; exact .error _
          | some b =>
              dsimp only
              cases setting.arithmetic.apply op a b with
              | some word => exact agrees_same hglobals word calls
              | none => rw [hglobals]; exact .error _
  | call inst target args isExternal saved =>
      refine callOut_agrees hglobals (fun loc hloc => ?_) calls target
      exact h ⟨inst, loc⟩ (List.mem_map.mpr ⟨loc, hloc, rfl⟩)

/-- A value without a call changes nothing, and fails where it has no result. -/
theorem evaluateValue_quiet {store : Store} {calls : List CallEvent} {value : Value}
    (h : value.callInst? = none) :
    match body.evaluateValue setting store calls value with
    | .ok reached => reached.store = store ∧ reached.calls = calls
    | .error ending => ending.outcome = .stuck ∨ ending.outcome = .aborted .trap := by
  cases value with
  | load src =>
      simp only [evaluateValue]
      cases body.read setting store src.loc with
      | none => exact Or.inl rfl
      | some word => exact ⟨rfl, rfl⟩
  | param inst index => exact ⟨rfl, rfl⟩
  | unary inst op operand =>
      simp only [evaluateValue]
      cases body.read setting store operand.loc with
      | none => exact Or.inl rfl
      | some word => exact ⟨rfl, rfl⟩
  | binary inst op lhs rhs =>
      simp only [evaluateValue]
      cases body.read setting store lhs.loc with
      | none => exact Or.inl rfl
      | some a =>
          cases body.read setting store rhs.loc with
          | none => exact Or.inl rfl
          | some b =>
              dsimp only
              cases setting.arithmetic.apply op a b with
              | none => exact Or.inr rfl
              | some word => exact ⟨rfl, rfl⟩
  | call => cases h

/-- How two runs go on behind a statement that writes no location: both end alike, both
    fall through with their variables as they were, or both go to one label. -/
inductive Abreast (body body' : Body) (stmt : Inst) (command : Command) (config config' : Config) :
    Progress Config → Progress Config → Prop
  /-- Both end. -/
  | ended (ending : Ending) : Abreast body body' stmt command config config' (.ended ending)
      (.ended ending)
  /-- Both fall through. -/
  | falls (globals : Globals) (calls : List CallEvent) (hfalls : command.isTerminator = false)
      (hglobals : command.callInst? stmt = none → globals = config'.store.globals) :
      Abreast body body' stmt command config config'
        (.going { config with store := { config.store with globals }, calls })
        (.going { config' with store := { config'.store with globals }, calls })
  /-- Both jump. -/
  | jumps (label : Label) (hlabel : command.target? = some label) :
      Abreast body body' stmt command config config' (body.goTo config label)
        (body'.goTo config' label)

/-- A statement that writes no location is performed alike, if it reads the same. -/
theorem perform_abreast {stmt : Inst} {command : Command} {config config' : Config}
    (hdest : command.dest? = none) (hglobals : config'.store.globals = config.store.globals)
    (hcalls : config'.calls = config.calls)
    (hreads : ∀ access ∈ command.reads stmt,
      body'.read setting config'.store access.loc = body.read setting config.store access.loc) :
    Abreast body body' stmt command config config' (body.perform setting config command)
      (body'.perform setting config' command) := by
  have hstop : ∀ outcome, Abreast body body' stmt command config config'
      (.ended (config.stop outcome)) (.ended (config'.stop outcome)) := by
    intro outcome
    rw [Config.stop, Config.stop, hglobals, hcalls]
    exact .ended _
  -- falling over a statement keeps what the two runs share, so the runs stay abreast
  have hfall : command.isTerminator = false →
      Abreast body body' stmt command config config' (.going config) (.going config') := by
    intro hfalls
    have hsame : ({ config with
        store := { config.store with globals := config'.store.globals }
        calls := config'.calls } : Config) = config := by rw [hglobals, hcalls]
    have habreast := @Abreast.falls body body' stmt command config config' config'.store.globals
      config'.calls hfalls fun _ => rfl
    rw [hsame] at habreast
    exact habreast
  cases command with
  | save => cases hdest
  | use loc => exact hfall rfl
  | label place => exact hfall rfl
  | jump target => exact .jumps target rfl
  | exit code => exact hstop _
  | branch cond target =>
      simp only [perform, hreads cond List.mem_cons_self]
      cases body.read setting config.store cond.loc with
      | none => exact hstop _
      | some word =>
          dsimp only
          by_cases hzero : word = 0
          · rw [if_pos hzero, if_pos hzero]
            exact .jumps target rfl
          · rw [if_neg hzero, if_neg hzero]
            exact hfall rfl
  | ret value =>
      cases value with
      | none => exact hstop _
      | some value =>
          simp only [perform, hreads value List.mem_cons_self]
          cases body.read setting config.store value.loc with
          | none => exact hstop _
          | some word => exact hstop _
  -- the callee sees the same fields and the same arguments, and so replies the same
  | call target args isExternal saved =>
      have hagrees := @callOut_agrees setting body body' _ _ hglobals id args
        (fun loc hloc => hreads ⟨stmt, loc⟩ (List.mem_map.mpr ⟨loc, hloc, rfl⟩)) config.calls target
      rw [List.map_id] at hagrees
      simp only [perform, hcalls]
      generalize body.callOut setting config.store config.calls target args = first at hagrees ⊢
      generalize body'.callOut setting config'.store config.calls target args = second
        at hagrees ⊢
      cases hagrees with
      | error ending => exact .ended _
      | ok word globals calls => exact .falls globals calls rfl fun h => by cases h

end Body

end DecafBackend
