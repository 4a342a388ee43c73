import DecafBackend.Proofs.EmissionOutcomes

/-! # Outcomes of compiling

    Whatever the pipeline makes of a program can be emitted, unless a statement that
    is left uses a field that the program does not declare.  Then the first such
    field that emission comes to is the error; otherwise every method has its
    function.

    * `Body.UsesField` — a statement loads, passes on or saves a field
    * `usesField_iff` — the same by accesses
    * `emitMethods_outcome`, `declareGlobals_ok` — the methods and fields of a module
    * `compile_outcome` — the outcomes for a program -/

namespace DecafBackend

/-! ## Uses of fields -/

/-- The locations that a record loads, passes to a call or saves to. -/
def Record.touched : Record → List Loc
  | load src => [src]
  | call _ args _ _ => args
  | save _ dest => [dest]
  | _ => []

namespace Body

variable {body : Body} {symbols : SymbolPool} {field : String}

/-- A statement loads a field, passes it to a call or saves to it. -/
def UsesField (body : Body) (symbols : SymbolPool) (field : String) : Prop :=
  ∃ stmt ∈ body.stmts, ∃ inst record loc symbol, body.Owns stmt inst ∧
    body.record inst = .ok record ∧ loc ∈ record.touched ∧
    body.location loc = .ok (.global symbol) ∧ symbols.text symbol = .ok field

/-- The reads of a statement are those of the records that it owns. -/
theorem mem_reads_iff {stmt : Inst} {command : Command} (h : body.command? stmt = some command)
    {access : Access} : access ∈ command.reads stmt ↔ body.Owns stmt access.inst ∧
      ∃ record, body.record access.inst = .ok record ∧ access.loc ∈ record.sources := by
  -- the reads are collected record by record over the tree of the value
  have hreads := reads_eq h
  have htree := valueTree_eq h
  rw [Body.reads, Checked.bind_ok htree] at hreads
  obtain ⟨parts, hparts, hflat⟩ := Checked.bind_eq_ok hreads
  obtain ⟨hlength, hall⟩ := Checked.mapM_eq_ok hparts
  rw [← Except.ok.inj hflat, List.mem_flatten, Owns]
  constructor
  · rintro ⟨part, hpart, haccess⟩
    obtain ⟨i, hi, rfl⟩ := List.mem_iff_getElem.mp hpart
    have hlt : i < (command.owned ++ [stmt]).length := hlength ▸ hi
    obtain ⟨part, hfound, hpart⟩ := hall (List.getElem?_eq_getElem hlt)
    obtain ⟨record, hrecord, hpart⟩ := Checked.bind_eq_ok hpart
    cases (List.getElem?_eq_getElem hi).symm.trans hfound
    rw [← Except.ok.inj hpart] at haccess
    obtain ⟨loc, hloc, rfl⟩ := List.mem_map.mp haccess
    exact ⟨⟨_, htree, List.getElem_mem hlt⟩, record, hrecord, hloc⟩
  · rintro ⟨⟨tree, htree', hmem⟩, record, hrecord, hloc⟩
    cases htree.symm.trans htree'
    obtain ⟨i, hi, hget⟩ := List.mem_iff_getElem.mp hmem
    obtain ⟨part, hfound, hpart⟩ := hall (List.getElem?_eq_getElem hi)
    rw [hget, Checked.bind_ok hrecord] at hpart
    refine ⟨part, List.mem_of_getElem? hfound, ?_⟩
    rw [← Except.ok.inj hpart]
    exact List.mem_map_of_mem hloc

/-- The records that a statement owns besides its own are values. -/
theorem owned_isValue {stmt inst : Inst} {command : Command} (h : body.command? stmt = some command)
    (hinst : inst ∈ command.owned) :
    ∃ record, body.record inst = .ok record ∧ record.isValue = true := by
  have h := command?_eq_some.mp h
  cases command with
  | save value dest =>
      obtain ⟨record, hrecord, hvalue, -⟩ := value_operand h.2 hinst
      exact ⟨record, hrecord, hvalue⟩
  | branch cond target =>
      obtain rfl := List.mem_singleton.mp hinst
      exact ⟨_, record_eq h.2, rfl⟩
  | ret value =>
      cases value with
      | none => cases hinst
      | some value =>
          obtain rfl := List.mem_singleton.mp hinst
          exact ⟨_, record_eq h.2, rfl⟩
  | call | use | label | jump | exit => cases hinst

/-- A statement owns values, besides its own record. -/
theorem Owns.cases {stmt inst : Inst} {command : Command} {record : Record}
    (h : body.Owns stmt inst) (hcommand : body.command? stmt = some command)
    (hrecord : body.record inst = .ok record) : inst = stmt ∨ record.isValue = true := by
  have hmem := (owns_iff hcommand).mp h
  rw [family_eq hcommand] at hmem
  rcases List.mem_append.mp hmem with howned | hself
  · obtain ⟨record', hrecord', hvalue⟩ := owned_isValue hcommand howned
    cases hrecord.symm.trans hrecord'
    exact Or.inr hvalue
  · exact Or.inl (List.mem_singleton.mp hself)

/-- **USES OF FIELDS ARE ACCESSES** of a regular body. -/
theorem usesField_iff (h : body.Regular) :
    body.UsesField symbols field ↔ Emission.TouchesField body symbols field := by
  -- a statement that is no bare use touches what it reads and what it writes
  have htouched : ∀ {record : Record} {loc : Loc}, (∀ other, record ≠ .use other) →
      (loc ∈ record.touched ↔ loc ∈ record.sources ∨ record.dest? = some loc) := by
    intro record loc hused
    cases record with
    | use other => exact absurd rfl (hused other)
    | load | save => simp [Record.touched, Record.sources, Record.dest?, eq_comm]
    | call | param | unary | binary | label | jump | branch | ret | exit =>
        simp [Record.touched, Record.sources, Record.dest?]
  -- a regular body owns no such use
  have hunused : ∀ {stmt inst : Inst} {command : Command} {record : Record}, stmt ∈ body.stmts →
      body.command? stmt = some command → body.Owns stmt inst → body.record inst = .ok record →
        ∀ loc, record ≠ .use loc := by
    rintro stmt inst command record hstmt hcommand howns hrecord loc rfl
    rcases howns.cases hcommand hrecord with rfl | hvalue
    · exact h.unused hstmt (command?_eq_some.mpr (records_of_record hrecord))
    · cases hvalue
  constructor
  · rintro ⟨stmt, hstmt, inst, record, loc, symbol, howns, hrecord, hloc, hlocation, htext⟩
    obtain ⟨command, hcommand, -⟩ := h.wellFormed.commands stmt hstmt
    replace hlocation := locations_of_location hlocation
    rcases (htouched (hunused hstmt hcommand howns hrecord)).mp hloc with hsource | hdest
    · have hmem : ⟨inst, loc⟩ ∈ command.reads stmt :=
        (mem_reads_iff hcommand).mpr ⟨howns, record, hrecord, hsource⟩
      exact ⟨⟨inst, loc⟩, symbol, ⟨stmt, hstmt, command, hcommand, List.mem_append_right _ hmem⟩,
        hlocation, htext⟩
    · -- the statement itself saves
      obtain rfl : inst = stmt := by
        rcases howns.cases hcommand hrecord with heq | hvalue
        · exact heq
        · cases record with
          | save => cases hvalue
          | load | param | unary | binary | call | use | label | jump | branch | ret | exit =>
              cases hdest
      obtain ⟨record', hrecord', hdest', -⟩ := record_command hcommand
      cases hrecord.symm.trans (record_eq hrecord')
      refine ⟨⟨inst, loc⟩, symbol, ⟨inst, hstmt, command, hcommand, ?_⟩, hlocation, htext⟩
      rw [Command.accesses, ← hdest', hdest]
      exact List.mem_cons_self
  · rintro ⟨access, symbol, ⟨stmt, hstmt, command, hcommand, hmem⟩, hlocation, htext⟩
    rcases List.mem_append.mp hmem with hdest | hreads
    · obtain ⟨loc, hloc, rfl⟩ := Option.map_eq_some_iff.mp (Option.mem_toList.mp hdest)
      obtain ⟨record, hrecord, hdest', -⟩ := record_command hcommand
      have howns := (owns_iff hcommand).mpr (mem_family_self body stmt)
      exact ⟨stmt, hstmt, stmt, record, loc, symbol, howns, record_eq hrecord,
        (htouched (hunused hstmt hcommand howns (record_eq hrecord))).mpr
          (Or.inr (hdest'.trans hloc)), location_eq hlocation, htext⟩
    · obtain ⟨howns, record, hrecord, hsource⟩ := (mem_reads_iff hcommand).mp hreads
      exact ⟨stmt, hstmt, access.inst, record, access.loc, symbol, howns, hrecord,
        (htouched (hunused hstmt hcommand howns hrecord)).mpr (Or.inl hsource),
        location_eq hlocation, htext⟩

end Body

/-! ## Modules -/

namespace Emission

/-- A function is what a body is emitted to. -/
def EmittedTo (symbols : SymbolPool) (body : Body) (function : Function) : Prop :=
  ∃ session last, emitMethod body symbols session = .ok (.ok function, last)

/-- **THE OUTCOMES FOR METHODS** one after another: the code of all of them, or the
    error of the first one that uses a field which is not declared. -/
theorem emitMethods_outcome {symbols : SymbolPool} {names : List String} {bodies : List Body}
    (h : List.Forall₂ (fun name body => body.Supplied symbols name) names bodies)
    (session : Session) :
    (∃ functions last, emitMethods symbols bodies session = .ok (.ok (functions, last)) ∧
      functions.map Function.name = names ∧ List.Forall₂ (EmittedTo symbols) bodies functions ∧
      ∀ body ∈ bodies, ∀ field, body.UsesField symbols field → field ∈ session.globals) ∨
    (∃ error, emitMethods symbols bodies session = .ok (.error error) ∧
      ∃ body ∈ bodies, ∃ name ∈ names, ∃ field, body.UsesField symbols field ∧
        field ∉ session.globals ∧ error = .unresolvedLocation name s!"global '{field}'") ∨
    emitMethods symbols bodies session = .error .overflow ∧ ∃ body ∈ bodies, body.Oversized := by
  -- by induction on the methods: the first that fails gives the outcome of all
  induction h generalizing session with
  | nil => exact Or.inl ⟨[], session, rfl, rfl, .nil, List.forall_mem_nil _⟩
  | @cons name body names bodies hbody _ ih =>
      have huses := fun field => @Body.usesField_iff body symbols field hbody.regular
      rcases emitMethod_outcome hbody session with
        ⟨function, next, hfirst, hname, hglobals, hdeclared⟩ |
          ⟨error, next, hfirst, field, hfield, hmissing, rfl⟩ | ⟨hfirst, hlarge⟩
      · rcases ih next with ⟨functions, last, hrest, hnames, hemitted, hall⟩ |
            ⟨error, hrest, other, hother, name', hname', field, hfield, hmissing, rfl⟩ |
            ⟨hrest, other, hother, hlarge⟩
        · refine Or.inl ⟨function :: functions, last, ?_, by rw [List.map_cons, hname, hnames],
            .cons ⟨session, next, hfirst⟩ hemitted, List.forall_mem_cons.mpr ⟨?_, ?_⟩⟩
          · rw [emitMethods, Checked.bind_ok hfirst]
            exact Checked.bind_ok hrest
          · exact fun field hfield => hdeclared field ((huses field).mp hfield)
          · exact hglobals ▸ hall
        · refine Or.inr (Or.inl ⟨_, ?_, other, List.mem_cons_of_mem _ hother, name',
            List.mem_cons_of_mem _ hname', field, hfield, hglobals ▸ hmissing, rfl⟩)
          rw [emitMethods, Checked.bind_ok hfirst]
          exact Checked.bind_ok hrest
        · refine Or.inr (Or.inr ⟨?_, other, List.mem_cons_of_mem _ hother, hlarge⟩)
          rw [emitMethods, Checked.bind_ok hfirst]
          exact Checked.bind_error hrest
      · refine Or.inr (Or.inl ⟨_, ?_, body, List.mem_cons_self, name, List.mem_cons_self, field,
          (huses field).mpr hfield, hmissing, rfl⟩)
        rw [emitMethods, Checked.bind_ok hfirst]
        rfl
      · refine Or.inr (Or.inr ⟨?_, body, List.mem_cons_self, hlarge⟩)
        rw [emitMethods, Checked.bind_error hfirst]

/-- To declare a field adds its name. -/
theorem mem_declareGlobal {session : Session} {name other : String} :
    other ∈ (session.declareGlobal name).2.globals ↔ other ∈ session.globals ∨ other = name := by
  rw [Session.declareGlobal]
  cases hfound : session.global? name with
  | none => rw [List.mem_append, List.mem_singleton]
  | some label =>
      refine (or_iff_left_of_imp ?_).symm
      rintro rfl
      refine Classical.byContradiction fun hmissing => ?_
      cases hfound.symm.trans (Session.global?_eq_none.mpr hmissing)

/-- The fields of a module are declared by their texts. -/
theorem declareGlobals_ok {module : Module}
    (h : ∀ symbol ∈ module.globals, ∃ text, module.symbols.text symbol = .ok text) :
    ∃ session, declareGlobals module = .ok session ∧ ∀ name, name ∈ session.globals ↔
      ∃ symbol ∈ module.globals, module.symbols.text symbol = .ok name := by
  -- the invariant of the declarations: what is done so far is declared
  let motive : List Symbol → Session → Prop := fun done session => ∀ name,
    name ∈ session.globals ↔ ∃ symbol ∈ done, module.symbols.text symbol = .ok name
  have hstep : ∀ done symbol session, symbol ∈ module.globals → motive done session →
      Checked.Within False (do
        return (session.declareGlobal (← module.symbols.text symbol)).2)
        (motive (done ++ [symbol])) := by
    intro done symbol session hsymbol hdone
    obtain ⟨text, htext⟩ := h symbol hsymbol
    rw [Checked.bind_ok htext]
    refine .pure fun name => ?_
    rw [mem_declareGlobal, hdone name]
    simp only [List.mem_append, List.mem_singleton, or_and_right, exists_or, exists_eq_left, htext,
      Except.ok.injEq]
    exact or_congr_right eq_comm
  have hstart : motive [] {} := by
    intro name
    refine ⟨fun hname => (by cases hname), ?_⟩
    rintro ⟨_, hmem, -⟩
    cases hmem
  rcases Checked.Within.foldlM hstep hstart with ⟨session, hsession, hglobals⟩ | ⟨-, hfalse⟩
  · exact ⟨session, hsession, hglobals⟩
  · exact hfalse.elim

end Emission

/-! ## Programs -/

open Source Lowering Emission

/-- The names that are declared for a program are its fields. -/
theorem declareGlobals_fields {program : Program} {module : Module}
    (hsymbols : module.symbols = (lowerProgram program).symbols)
    (hglobals : module.globals = (lowerProgram program).globals) :
    ∃ session, declareGlobals module = .ok session ∧
      ∀ name, name ∈ session.globals ↔ name ∈ program.fields := by
  have hfields : ∀ {symbol}, symbol ∈ module.globals ↔
      ∃ field ∈ program.fields, module.symbols.find? field = some symbol := by
    intro symbol
    rw [hsymbols, hglobals]
    exact lowerProgram_fields program symbol
  have htexts : ∀ symbol ∈ module.globals, ∃ text, module.symbols.text symbol = .ok text := by
    intro symbol hsymbol
    obtain ⟨field, -, hfind⟩ := hfields.mp hsymbol
    exact ⟨field, SymbolPool.text_of_find? hfind⟩
  obtain ⟨session, hsession, hnames⟩ := declareGlobals_ok htexts
  refine ⟨session, hsession, fun name => (hnames name).trans ⟨?_, fun hname => ?_⟩⟩
  · rintro ⟨symbol, hsymbol, htext⟩
    obtain ⟨field, hfield, hfind⟩ := hfields.mp hsymbol
    cases htext.symm.trans (SymbolPool.text_of_find? hfind)
    exact hfield
  · -- a declared field has a symbol
    obtain ⟨symbol, hfind⟩ := lowerProgram_find?_field hname
    rw [← hsymbols] at hfind
    exact ⟨symbol, hfields.mpr ⟨name, hname, hfind⟩, SymbolPool.text_of_find? hfind⟩

/-- **COMPILING FAILS FOR UNDECLARED FIELDS ONLY**: once the pipeline has come to
    its end, compiling gives an error exactly if a statement that is left loads,
    passes to a call or saves a field that the program does not declare, and the
    error says so; otherwise it gives a function for every method in order.  Sizes
    that do not fit machine integers are the one thing that stops it. -/
theorem compile_outcome {steps : Nat} {options : CompileOptions} {program : Program}
    {module : Module} (h : optimizedModule steps options program = .ok module) :
    (∃ result, compile steps options program = .ok result ∧
      ((∃ name text, result = .error (.unresolvedLocation name text)) ↔
        ∃ body ∈ module.methods, ∃ field, body.UsesField module.symbols field ∧
          field ∉ program.fields) ∧
      (∀ error, result = .error error → ∃ method ∈ program.methods, ∃ field,
        field ∉ program.fields ∧
          error = .unresolvedLocation method.name s!"global '{field}'") ∧
      (∀ assembly, result = .ok assembly →
        assembly.functions.map Function.name = program.methods.map Method.name ∧
        List.Forall₂ (EmittedTo module.symbols) module.methods.toList assembly.functions)) ∨
    compile steps options program = .error .overflow ∧ ∃ body ∈ module.methods, body.Oversized := by
  -- the module that comes out of the passes keeps the fields of the program
  obtain ⟨hsymbols, hglobals, hsupplied⟩ := optimizedModule_supplied h
  obtain ⟨session, hsession, hfields⟩ := declareGlobals_fields hsymbols hglobals
  have hcompile : compile steps options program = emitModule module := Checked.bind_ok h
  rw [hcompile, emitModule, Checked.bind_ok hsession]
  rcases emitMethods_outcome (List.forall₂_map_left_iff.mpr hsupplied) session with
    ⟨functions, last, hrest, hnames, hemitted, hall⟩ |
      ⟨error, hrest, body, hbody, name, hname, field, hfield, hmissing, rfl⟩ |
      ⟨hrest, body, hbody, hlarge⟩
  · refine Or.inl ⟨_, Checked.bind_ok hrest, ?_, fun error herror => (by cases herror), ?_⟩
    · constructor
      · rintro ⟨_, _, herror⟩
        cases herror
      rintro ⟨body, hbody, field, hfield, hmissing⟩
      have hdeclared := hall body (Array.mem_toList_iff.mpr hbody) field hfield
      exact absurd ((hfields field).mp hdeclared) hmissing
    · intro assembly hassembly
      cases hassembly
      exact ⟨hnames, hemitted⟩
  · have hundeclared : field ∉ program.fields := fun hmem => hmissing ((hfields field).mpr hmem)
    refine Or.inl ⟨_, Checked.bind_ok hrest, ⟨fun _ => ?_, fun _ => ⟨_, _, rfl⟩⟩, ?_,
      fun assembly hassembly => (by cases hassembly)⟩
    · exact ⟨body, Array.mem_toList_iff.mp hbody, field, hfield, hundeclared⟩
    · rintro error herror
      obtain ⟨method, hmethod, rfl⟩ := List.mem_map.mp hname
      cases herror
      exact ⟨method, hmethod, field, hundeclared, rfl⟩
  · exact Or.inr ⟨Checked.bind_error hrest, body, Array.mem_toList_iff.mp hbody, hlarge⟩

/-- A program that copies a field which it does not declare into a variable that
    nothing reads. -/
def copyingUndeclared : Program where
  fields := ["total"]
  methods := [{
    name := "main"
    params := ["a"]
    returnsValue := true
    body := .mk ["x"]
      [.assign "x" .assign (.var "missing"),
        .assign "total" .addAssign (.var "a"),
        .ret (some (.var "total"))] }]

/-- The copy is dead, so the optimizations take the error away: without them a use
    of the field is left, and with them none is. -/
theorem copyingUndeclared_outcome :
    (∃ module, optimizedModule 100 ⟨.off, true, [.rbx, .r12]⟩ copyingUndeclared = .ok module ∧
      ∃ body ∈ module.methods, ∃ field, body.UsesField module.symbols field ∧
        field ∉ copyingUndeclared.fields) ∧
    ∃ module, optimizedModule 100 {} copyingUndeclared = .ok module ∧
      ∀ body ∈ module.methods, ∀ field, body.UsesField module.symbols field →
        field ∈ copyingUndeclared.fields := by
  have hfails : (compile 100 ⟨.off, true, [.rbx, .r12]⟩ copyingUndeclared).toOption.any
      (fun result => !result.isOk) = true := by decide +kernel
  have hgives : (compile 100 {} copyingUndeclared).toOption.any Except.isOk = true := by
    decide +kernel
  obtain ⟨result, hresult, hfails⟩ := Checked.exists_of_test hfails
  obtain ⟨result', hresult', hgives⟩ := Checked.exists_of_test hgives
  obtain ⟨module, hmodule, -⟩ := Checked.bind_eq_ok hresult
  obtain ⟨module', hmodule', -⟩ := Checked.bind_eq_ok hresult'
  refine ⟨⟨module, hmodule, ?_⟩, module', hmodule', ?_⟩
  · rcases compile_outcome hmodule with ⟨found, hfound, hiff, herror, -⟩ | ⟨hfault, -⟩
    · cases hresult.symm.trans hfound
      cases result with
      | ok assembly => cases hfails
      | error error =>
          obtain ⟨method, -, field, -, rfl⟩ := herror error rfl
          exact hiff.mp ⟨_, _, rfl⟩
    · cases hresult.symm.trans hfault
  · rcases compile_outcome hmodule' with ⟨found, hfound, hiff, -⟩ | ⟨hfault, -⟩
    · cases hresult'.symm.trans hfound
      intro body hbody field hfield
      refine Classical.byContradiction fun hmissing => ?_
      obtain ⟨name, text, rfl⟩ := hiff.mpr ⟨body, hbody, field, hfield, hmissing⟩
      cases hgives
    · cases hresult'.symm.trans hfault

end DecafBackend
