import DecafBackend.Proofs.CollectedNames
import DecafBackend.Proofs.CompileOutcomes
import DecafBackend.Proofs.OrderlyBodies

/-! # The sections of a program

    One session collects fields, texts and external names for all methods of a module.
    What it holds in the end is what the statements in the layouts of the methods use,
    each thing once, and all names in the code are defined.

    * `Body.UsesText`, `Body.CallsOutside`, `Body.Exits` — what the statements use
    * `Gathers`, `emitMethods_gathers` — what methods add, one after another
    * `declareGlobals_names` — the fields
    * `emitModule_sections` — the sections of an emitted module
    * `boundText_unlisted` — a text that is not listed, as it is in a register -/

namespace DecafBackend

/-! ## What the statements of a body use -/

namespace Body

/-- A statement loads a literal text or passes it to a call, and no register holds it
    there. -/
def UsesText (body : Body) (symbols : SymbolPool) (text : String) : Prop :=
  ∃ stmt ∈ body.stmts, ∃ inst record, body.Evaluates stmt inst ∧ body.record inst = .ok record ∧
    ∃ loc ∈ record.fetched, body.bindings.get? ⟨inst, loc⟩ = none ∧ body.Quotes symbols loc text

/-- A statement calls an external routine. -/
def CallsOutside (body : Body) (symbols : SymbolPool) (name : String) : Prop :=
  ∃ stmt ∈ body.stmts, ∃ inst record, body.Evaluates stmt inst ∧ body.record inst = .ok record ∧
    ∃ symbol, record.external? = some symbol ∧ symbols.text symbol = .ok name

/-- A statement ends the process. -/
def Exits (body : Body) : Prop :=
  ∃ stmt ∈ body.stmts, ∃ code, body.record stmt = .ok (.exit code)

/-- All places that statements jump to are marked by statements. -/
def Anchored (body : Body) : Prop :=
  ∀ stmt ∈ body.stmts, ∀ record, body.record stmt = .ok record →
    ∀ label, record.target? = some label →
      ∃ place ∈ body.stmts, body.record place = .ok (.label label)

/-- Orderly bodies have the places that they jump to. -/
theorem Orderly.anchored {body : Body} (h : body.Orderly) : body.Anchored := by
  intro stmt hstmt record hrecord label hlabel
  obtain ⟨block, -, hheads⟩ := h.target stmt hstmt record hrecord label hlabel
  obtain ⟨place, rest, hplace, hlabelled⟩ := (hheads block).mpr rfl
  have hmem : place ∈ body.stmtsOf block := hplace ▸ List.mem_cons_self
  exact ⟨place, mem_stmts_of_stmtsOf hmem, hlabelled⟩

end Body

namespace Emission

/-- The texts that the statements of a body want are those it uses. -/
theorem wants_text {body : Body} {symbols : SymbolPool} {text : String} :
    (∃ stmt ∈ body.stmts, Wants body symbols stmt (.text text)) ↔ body.UsesText symbols text := by
  simp only [Wants, Body.Marks, or_false]
  rfl

/-- The routines that the statements of a body want are those it calls outside. -/
theorem wants_external {body : Body} {symbols : SymbolPool} {name : String} :
    (∃ stmt ∈ body.stmts, Wants body symbols stmt (.external name)) ↔
      body.CallsOutside symbols name ∨ body.Exits ∧ name = exitRoutine := by
  simp only [Wants, Body.Marks, and_or_left, exists_or, Body.Exits, ← and_assoc, exists_and_right]
  rfl

/-- Only statements are about places. -/
theorem wants_place {body : Body} {symbols : SymbolPool} {stmt : Inst} {demand : Demand}
    (h : ∀ inst record, ¬body.Demands symbols inst record demand) :
    Wants body symbols stmt demand ↔ body.Marks stmt demand := by
  refine or_iff_right ?_
  rintro ⟨inst, record, -, -, hdemands⟩
  exact h inst record hdemands

/-! ## Methods one after another -/

/-- All names in the code of a function are those of fields and texts of a session, or
    of places that its body asks for. -/
structure Resolves (session : Session) (body : Body) (function : Function) : Prop where
  linked : ∀ instruction ∈ function.code, instruction.Linked session
  target : ∀ instruction ∈ function.code, ∀ name, instruction.target? = some name →
    ∃ stmt ∈ body.stmts, body.Marks stmt (.target name)
  place : ∀ stmt ∈ body.stmts, ∀ name, body.Marks stmt (.place name) → .label name ∈ function.code

/-- What methods add to a session. -/
structure Gathers (symbols : SymbolPool) (bodies : List Body) (functions : List Function)
    (session last : Session) : Prop where
  grows : session.Grows last
  nodup : session.texts.Nodup → last.texts.Nodup
  texts : ∀ text, text ∈ last.texts ↔
    text ∈ session.texts ∨ ∃ body ∈ bodies, body.UsesText symbols text
  externs : ∀ name, name ∈ last.externs ↔ name ∈ session.externs ∨
    ∃ body ∈ bodies, body.CallsOutside symbols name ∨ body.Exits ∧ name = exitRoutine
  functions : List.Forall₂ (Resolves last) bodies functions

/-- One method. -/
theorem emitMethod_gathers {body : Body} {symbols : SymbolPool} {session last : Session}
    {function : Function} (h : emitMethod body symbols session = .ok (.ok function, last)) :
    Gathers symbols [body] [function] session last := by
  have hcollects := emitMethod_collects h
  obtain ⟨code, hcode, hall, hplaces⟩ := hcollects.code
  replace hcode : function.code = code := hcode
  subst hcode
  refine ⟨hcollects.grows, hcollects.nodup, fun text => ?_, fun name => ?_, .cons ?_ .nil⟩
  · rw [hcollects.texts, wants_text]
    simp only [List.mem_singleton, exists_eq_left]
  · rw [hcollects.externs, wants_external]
    simp only [List.mem_singleton, exists_eq_left]
  · refine ⟨fun i hi => (hall i hi).1, fun i hi name hname => ?_, fun stmt hstmt name hmarks => ?_⟩
    · obtain ⟨stmt, hstmt, hwants⟩ := (hall i hi).2 name hname
      exact ⟨stmt, hstmt, (wants_place fun _ _ => id).mp hwants⟩
    · exact hplaces name ⟨stmt, hstmt, (wants_place fun _ _ => id).mpr hmarks⟩

/-- What is resolved stays resolved. -/
theorem Resolves.mono {early late : Session} {body : Body} {function : Function}
    (h : Resolves early body function) (hgrows : early.Grows late) :
    Resolves late body function :=
  ⟨fun i hi => (h.linked i hi).mono hgrows, h.target, h.place⟩

/-- One method, and the others behind it. -/
theorem Gathers.cons {symbols : SymbolPool} {body : Body} {bodies : List Body}
    {function : Function} {functions : List Function} {session middle last : Session}
    (h₁ : Gathers symbols [body] [function] session middle)
    (h₂ : Gathers symbols bodies functions middle last) :
    Gathers symbols (body :: bodies) (function :: functions) session last where
  grows := h₁.grows.trans h₂.grows
  nodup h := h₂.nodup (h₁.nodup h)
  texts text := by
    rw [h₂.texts, h₁.texts, or_assoc]
    simp only [List.mem_cons, List.not_mem_nil, or_false, exists_eq_left, exists_eq_or_imp]
  externs name := by
    rw [h₂.externs, h₁.externs, or_assoc]
    simp only [List.mem_cons, List.not_mem_nil, or_false, exists_eq_left, exists_eq_or_imp]
  functions := by
    cases h₁.functions with
    | cons hfirst _ => exact .cons (hfirst.mono h₂.grows) h₂.functions

/-- **METHODS GATHER** what their statements use. -/
theorem emitMethods_gathers {symbols : SymbolPool} {bodies : List Body}
    {functions : List Function} {session last : Session}
    (h : emitMethods symbols bodies session = .ok (.ok (functions, last))) :
    Gathers symbols bodies functions session last := by
  induction bodies generalizing functions session with
  | nil =>
      cases h
      exact ⟨.refl _, id, fun _ => by simp, fun _ => by simp, .nil⟩
  | cons body bodies ih =>
      obtain ⟨⟨result, middle⟩, hfirst, h⟩ := Checked.bind_eq_ok h
      cases result with
      | error error => cases h
      | ok function =>
          obtain ⟨result, hrest, h⟩ := Checked.bind_eq_ok h
          cases result with
          | error error => cases h
          | ok pair =>
              cases h
              exact (emitMethod_gathers hfirst).cons (ih hrest)

/-! ## Fields -/

/-- A field is declared once. -/
theorem declareGlobal_eq (session : Session) (name : String) :
    (session.declareGlobal name).2 = { session with globals :=
      if name ∈ session.globals then session.globals else session.globals ++ [name] } := by
  rw [Session.declareGlobal]
  split
  · next label hlabel =>
      rw [if_pos (Classical.byContradiction fun hnot => ?_)]
      cases hlabel.symm.trans (Session.global?_eq_none.mpr hnot)
  · next hnone => rw [if_neg (Session.global?_eq_none.mp hnone)]

/-- A repeated name is dropped. -/
theorem eraseDups_again {list : List String} {name : String} (h : name ∈ list)
    (rest : List String) : (list ++ name :: rest).eraseDups = (list ++ rest).eraseDups := by
  rw [List.eraseDups_append, List.eraseDups_append, List.removeAll, List.removeAll,
    List.filter_cons_of_neg (by simpa using h)]

/-- A new name is the last one. -/
theorem eraseDups_snoc {list : List String} {name : String} (h : name ∉ list)
    (hlist : list.eraseDups = list) : (list ++ [name]).eraseDups = list ++ [name] := by
  rw [List.eraseDups_append, hlist, List.removeAll, List.filter_cons_of_pos (by simpa using h)]
  rfl

/-- Fields that are declared one after another keep their order, and each is there
    once. -/
theorem declare_names {module : Module} {symbols : List Symbol} {start session : Session}
    (h : symbols.foldlM (fun session name => do
      return (session.declareGlobal (← module.symbols.text name)).2) start = .ok session)
    (hstart : start.globals.eraseDups = start.globals) :
    ∃ names, symbols.mapM module.symbols.text = .ok names ∧
      session = { start with globals := (start.globals ++ names).eraseDups } := by
  -- the names that are declared already are an arbitrary list without repetitions
  induction symbols generalizing start with
  | nil =>
      cases h
      refine ⟨[], rfl, ?_⟩
      rw [List.append_nil, hstart]
  | cons symbol symbols ih =>
      obtain ⟨next, hnext, h⟩ := Checked.bind_eq_ok h
      obtain ⟨name, hname, hnext⟩ := Checked.bind_eq_ok hnext
      cases hnext
      have hnames {names : List String} (hrest : symbols.mapM module.symbols.text = .ok names) :
          (symbol :: symbols).mapM module.symbols.text = .ok (name :: names) := by
        rw [List.mapM_cons, Checked.bind_ok hname, Checked.bind_ok hrest]
        rfl
      rw [declareGlobal_eq] at h
      by_cases hold : name ∈ start.globals
      · rw [if_pos hold] at h
        obtain ⟨names, hrest, rfl⟩ := ih h hstart
        refine ⟨name :: names, hnames hrest, ?_⟩
        rw [eraseDups_again hold]
      · rw [if_neg hold] at h
        obtain ⟨names, hrest, rfl⟩ := ih h (eraseDups_snoc hold hstart)
        refine ⟨name :: names, hnames hrest, ?_⟩
        rw [List.append_assoc, List.singleton_append]

/-- The fields of a module are declared once each, in order. -/
theorem declareGlobals_names {module : Module} {session : Session}
    (h : declareGlobals module = .ok session) :
    ∃ names, module.globals.mapM module.symbols.text = .ok names ∧
      session = { globals := names.eraseDups } :=
  declare_names h rfl

/-! ## Sections -/

/-- The texts of a finished program are those of the session. -/
theorem texts_finish (session : Session) (functions : List Function) :
    (session.finish functions).texts.map TextEntry.text = session.texts := by
  rw [Session.finish, List.map_map]
  exact List.zipIdx_map_fst 0 session.texts

/-- The label of a declared field is in the data section. -/
theorem mem_data {session : Session} {name label : String} (h : session.global? name = some label)
    (functions : List Function) : label ∈ (session.finish functions).data := by
  obtain ⟨position, hposition, rfl⟩ := Option.map_eq_some_iff.mp h
  obtain ⟨hlt, -⟩ := List.idxOf?_eq_some_iff.mp hposition
  exact List.mem_map_of_mem (List.mem_range.mpr hlt)

/-- The label of a collected text is in the section of texts. -/
theorem mem_labels {session : Session} {text label : String} (h : session.label? text = some label)
    (functions : List Function) :
    label ∈ (session.finish functions).texts.map TextEntry.label := by
  obtain ⟨position, hposition, rfl⟩ := Option.map_eq_some_iff.mp h
  obtain ⟨hlt, hat, -⟩ := List.idxOf?_eq_some_iff.mp hposition
  refine List.mem_of_getElem? (i := position) ?_
  rw [Session.getElem?_labels, List.getElem?_eq_some_iff.mpr ⟨hlt, hat⟩]
  rfl

/-- External names are listed in order. -/
theorem externs_sorted (session : Session) (functions : List Function) :
    (session.finish functions).externs.Pairwise (· < ·) := by
  refine session.externs.ordered_toList.imp fun {first second} hless => ?_
  exact compareOfLessAndEq_eq_lt.mp hless

/-- Every name in a function is defined: fields in the data section, texts in theirs,
    and places in the function if the body marks them. -/
structure Defines (program : Assembly) (body : Body) (function : Function) : Prop where
  data : ∀ instruction ∈ function.code, ∀ label ∈ instruction.dataLabels, label ∈ program.data
  text : ∀ instruction ∈ function.code, ∀ label, instruction.addressed? = some label →
    label ∈ program.texts.map TextEntry.label
  place : body.Anchored → ∀ instruction ∈ function.code, ∀ name,
    instruction.target? = some name → .label name ∈ function.code

/-- What a session has resolved its program defines. -/
theorem Resolves.defines {session : Session} {body : Body} {function : Function}
    (h : Resolves session body function) (functions : List Function) :
    Defines (session.finish functions) body function where
  data i hi label hlabel := by
    obtain ⟨name, hname⟩ := (h.linked i hi).data label hlabel
    exact mem_data hname functions
  text i hi label hlabel := by
    obtain ⟨text, htext⟩ := (h.linked i hi).text label hlabel
    exact mem_labels htext functions
  place hanchored i hi name hname := by
    obtain ⟨stmt, hstmt, record, label, hrecord, hlabel, rfl⟩ := h.target i hi name hname
    obtain ⟨place, hplace, hmarks⟩ := hanchored stmt hstmt record hrecord label hlabel
    exact h.place place hplace _ ⟨label, hmarks, rfl⟩

/-- **THE SECTIONS OF A PROGRAM**: the data section has one label for each distinct
    field, in order; there is one entry for each distinct text that a statement loads
    or passes without having it in a register; the external names are in increasing
    order, and are the routines that statements call and the one that ends the
    process, if a statement does; and every name in the code is defined. -/
theorem emitModule_sections {module : Module} {program : Assembly}
    (h : emitModule module = .ok (.ok program)) :
    (∃ names, module.globals.mapM module.symbols.text = .ok names ∧
      program.data = (List.range names.eraseDups.length).map Session.globalLabel) ∧
    (program.texts.map TextEntry.text).Nodup ∧
    (∀ text, text ∈ program.texts.map TextEntry.text ↔
      ∃ body ∈ module.methods, body.UsesText module.symbols text) ∧
    program.externs.Pairwise (· < ·) ∧
    (∀ name, name ∈ program.externs ↔ ∃ body ∈ module.methods,
      body.CallsOutside module.symbols name ∨ body.Exits ∧ name = exitRoutine) ∧
    List.Forall₂ (Defines program) module.methods.toList program.functions := by
  obtain ⟨start, hstart, h⟩ := Checked.bind_eq_ok h
  obtain ⟨result, hmethods, h⟩ := Checked.bind_eq_ok h
  cases result with
  | error error => cases h
  | ok pair =>
      obtain ⟨functions, last⟩ := pair
      cases h
      obtain ⟨names, hnames, rfl⟩ := declareGlobals_names hstart
      have hgathers := emitMethods_gathers hmethods
      refine ⟨⟨names, hnames, ?_⟩, ?_, fun text => ?_, externs_sorted last functions,
        fun name => ?_, hgathers.functions.imp fun body function hresolves =>
          hresolves.defines functions⟩
      · show (List.range last.globals.length).map _ = _
        rw [hgathers.grows.globals]
      · rw [texts_finish]
        exact hgathers.nodup List.nodup_nil
      · rw [texts_finish, hgathers.texts, or_iff_right List.not_mem_nil]
        simp only [Array.mem_toList_iff]
      · show name ∈ last.externs.toList ↔ _
        rw [Std.ExtTreeSet.mem_toList, hgathers.externs, or_iff_right Std.ExtTreeSet.not_mem_empty]
        simp only [Array.mem_toList_iff]

open Source in
/-- A program with a loop that prints, and with a method whose end ends the process. -/
def countdown : Program where
  fields := ["count"]
  methods := [{
    name := "positive"
    params := ["n"]
    returnsValue := true
    body := .mk [] [.cond (.var "n") (.mk [] [.ret (some (.var "n"))]) none] }, {
    name := "main"
    params := []
    returnsValue := false
    body := .mk []
      [.whileLoop (.var "count") (.mk [] [
        .call (.mk "printf" [.text "at %d", .expr (.var "count")] true),
        .assign "count" .subAssign (.int 1)]),
      .call (.mk "printf" [.text "done"] true)] }]

/-- The sections of the compiled program: the loop jumps to its own labels, both texts
    are listed, and so are both routines. -/
theorem countdown_sections : ∃ module program,
    optimizedModule 100 {} countdown = .ok module ∧ emitModule module = .ok (.ok program) ∧
    program.data = ["field0"] ∧ program.texts.map TextEntry.text = ["at %d", "done"] ∧
    program.externs = ["exit", "printf"] ∧
    (∃ body ∈ module.methods, body.UsesText module.symbols "done") ∧
    (∃ body ∈ module.methods, body.CallsOutside module.symbols "printf") ∧
    (∀ body ∈ module.methods, body.Anchored) ∧
    List.Forall₂ (Defines program) module.methods.toList program.functions := by
  have htest : (compile 100 {} countdown).toOption.any (fun result =>
      result.toOption.any fun program => decide (program.data = ["field0"] ∧
        program.texts.map TextEntry.text = ["at %d", "done"] ∧
        program.externs = ["exit", "printf"])) = true := by decide +kernel
  obtain ⟨result, hresult, htest⟩ := Checked.exists_of_test htest
  obtain ⟨program, rfl, htest⟩ := Checked.exists_of_test htest
  obtain ⟨hdata, htexts, hexterns⟩ := of_decide_eq_true htest
  obtain ⟨module, hmodule, hprogram⟩ := Checked.bind_eq_ok hresult
  -- the test is run once, and the theorem says what its result means
  obtain ⟨-, -, husesText, -, hcalls, hdefines⟩ := emitModule_sections hprogram
  refine ⟨module, program, hmodule, hprogram, hdata, htexts, hexterns, ?_, ?_, ?_, hdefines⟩
  · exact (husesText "done").mp (by rw [htexts]; decide)
  · obtain ⟨body, hbody, hcall | ⟨-, hexit⟩⟩ := (hcalls "printf").mp (by rw [hexterns]; decide)
    · exact ⟨body, hbody, hcall⟩
    · exact absurd hexit (by decide)
  · obtain ⟨-, -, hsupplied⟩ := optimizedModule_supplied hmodule
    have hanchored : List.Forall₂ (fun body _ => body.Anchored ∧ True) module.methods.toList
        countdown.methods :=
      hsupplied.flip.imp fun _ _ hbody => ⟨hbody.regular.orderly.anchored, trivial⟩
    exact fun body hbody =>
      ((List.forall₂_and_left _ _).mp hanchored).1 body (Array.mem_toList_iff.mpr hbody)

/-- A method that prints a text which it has in a register. -/
def boundText : Module where
  symbols := SymbolPool.ofList ["main", "puts", "hello"]
  methods := #[{
    name := ⟨0⟩
    records := #[.call ⟨1⟩ [⟨0⟩] true [], .ret none]
    locations := #[.literal ⟨2⟩]
    blocks := #[{ stmts := [⟨0⟩, ⟨1⟩] }]
    bindings := Bindings.bind {} ⟨⟨0⟩, ⟨0⟩⟩ .rbx }]

/-- The text is passed to the call, but it is not listed. -/
theorem boundText_unlisted :
    (∃ program, emitModule boundText = .ok (.ok program) ∧ program.texts = []) ∧
    ∃ body ∈ boundText.methods, ∃ stmt ∈ body.stmts, ∃ record, body.record stmt = .ok record ∧
      ∃ loc ∈ record.fetched, body.Quotes boundText.symbols loc "hello" := by
  have htest : (emitModule boundText).toOption.any (fun result =>
      result.toOption.any fun program => decide (program.texts = [])) = true := by decide +kernel
  obtain ⟨result, hresult, htest⟩ := Checked.exists_of_test htest
  obtain ⟨program, rfl, htest⟩ := Checked.exists_of_test htest
  refine ⟨⟨program, hresult, of_decide_eq_true htest⟩, ?_⟩
  refine ⟨_, Array.mem_toList_iff.mp List.mem_cons_self, ⟨0⟩, List.mem_cons_self, _, rfl, ⟨0⟩,
    List.mem_cons_self, ⟨2⟩, rfl, ?_⟩
  decide +kernel

end Emission

end DecafBackend
