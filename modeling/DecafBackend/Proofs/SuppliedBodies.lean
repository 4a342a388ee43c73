import DecafBackend.Compile
import DecafBackend.Proofs.LoweredPrograms
import DecafBackend.Proofs.OrderlyBodies

/-! # Supplied bodies

    Emission looks up what a body names: the texts of its fields, literals and
    callees, and the positions of its arguments.  Lowering supplies all of it, and
    passes keep it, since they name nothing new and give registers to variables and
    temporaries only.

    * `Body.Supplied` — what a body names is there
    * `Supplied.of_pieces`, `Supplied.allocated`, `Pass.supplied_run` — passes keep it
    * `LoweredTo.supplied` — lowering supplies it
    * `optimizedModule_supplied` — the methods at the end of the pipeline, in order -/

namespace DecafBackend

namespace SymbolPool

variable {pool : SymbolPool} {symbol : Symbol}

theorem text_of_find? {text : String} (h : pool.find? text = some symbol) :
    pool.text symbol = .ok text := by
  rw [SymbolPool.text, text?_of_find? h]

theorem Names.text (h : pool.Names symbol) : ∃ text, pool.text symbol = .ok text :=
  h.imp fun _ => text_of_find?

end SymbolPool

theorem Command.callee?_withSaved (command : Command) (saved : Inst → List Register) (stmt : Inst) :
    (command.withSaved saved stmt).callee? = command.callee? := by
  cases command with
  | save value dest => cases value <;> rfl
  | call | use | label | jump | branch | ret | exit => rfl

namespace Body

variable {pool : SymbolPool} {name : String} {body after : Body}

/-- What a body names is there: its own name, the texts of its locations and
    callees, its arguments, and a location that a register can hold wherever one is
    given. -/
structure Supplied (pool : SymbolPool) (name : String) (body : Body) : Prop where
  regular : body.Regular
  name : pool.find? name = some body.name
  named : ∀ {i : Nat} {location : Location} {symbol : Symbol},
    body.locations[i]? = some location → location.symbol? = some symbol → pool.Names symbol
  called : ∀ {stmt : Inst} {command : Command} {symbol : Symbol}, stmt ∈ body.stmts →
    body.command? stmt = some command → command.callee? = some symbol → pool.Names symbol
  param : ∀ {stmt inst : Inst} {index : Nat} {dest : Loc}, stmt ∈ body.stmts →
    body.command? stmt = some (.save (.param inst index) dest) → index < body.params.length
  bound : ∀ {access : Access} {register : Register},
    body.bindings.get? access = some register → body.tracks access.loc = true

/-! ## Passes -/

/-- A location that is tracked is tracked when more is there. -/
theorem Enlarges.tracks (h : Enlarges body after) {loc : Loc} (htracks : body.tracks loc = true) :
    after.tracks loc = true := by
  rw [Body.tracks] at htracks ⊢
  cases hlocation : body.locations[loc.index]? with
  | none =>
      rw [hlocation] at htracks
      cases htracks
  | some location =>
      rw [hlocation] at htracks
      rw [h.old hlocation]
      exact htracks

/-- **STATEMENTS MAY CHANGE** one by one. -/
theorem Supplied.of_pieces {pieces : Inst → List Inst} (h : body.Supplied pool name)
    (hpieces : Pieces body after pieces) (hbindings : after.bindings = body.bindings) :
    after.Supplied pool name := by
  have wf := h.regular.wellFormed
  constructor
  case regular => exact h.regular.of_pieces hpieces
  case name =>
    rw [hpieces.enlarges.name]
    exact h.name
  case named =>
    -- a new location is a temporary, which needs no name
    intro i location symbol hlocation hsymbol
    rcases hpieces.enlarges.new hlocation with hold | rfl
    · exact h.named hold hsymbol
    · cases hsymbol
  case called =>
    -- each piece comes from an old statement, and calls what that calls or nothing
    intro piece new symbol hpiece hnew hcallee
    obtain ⟨_, -, hmem⟩ := Body.mem_stmts.mp hpiece
    obtain ⟨stmt, command, hstmt, hcommand, hyields⟩ := hpieces.origin wf hmem hnew
    rcases hyields.callee with hnone | hsame
    · cases hnone.symm.trans hcallee
    · exact h.called (Body.mem_stmts_of_stmtsOf hstmt) hcommand (hsame.symm.trans hcallee)
  case param =>
    intro piece inst index dest hpiece hnew
    obtain ⟨_, -, hmem⟩ := Body.mem_stmts.mp hpiece
    obtain ⟨stmt, command, hstmt, hcommand, hyields⟩ := hpieces.origin wf hmem hnew
    obtain ⟨dest', rfl⟩ := hyields.param inst index dest rfl
    rw [hpieces.enlarges.params]
    exact h.param (Body.mem_stmts_of_stmtsOf hstmt) hcommand
  case bound =>
    intro access register hbound
    rw [hbindings] at hbound
    exact hpieces.enlarges.tracks (h.bound hbound)

/-- **REGISTERS MAY BE ALLOCATED**: variables and temporaries alone get them. -/
theorem Supplied.allocated (h : body.Supplied pool name) (palette : List Register)
    {summary : AllocationSummary} (hok : allocateRegisters palette body = .ok (summary, after)) :
    after.Supplied pool name := by
  obtain ⟨_, flow, liveness, webs, graph, coloring, bindings, heq, found⟩ :=
    allocateRegisters_eq h.regular.wellFormed palette
  cases hok.symm.trans heq
  -- only the saved registers of calls and the bindings change
  have hresaved := rewritten_resaved body graph coloring bindings
  constructor
  case regular => exact h.regular.resaved hresaved
  case name =>
    rw [hresaved.rest]
    exact h.name
  case named =>
    rw [hresaved.locations]
    exact h.named
  case called =>
    intro stmt command symbol hstmt hcommand hcallee
    obtain ⟨old, hold, rfl⟩ := hresaved.command_of hcommand
    rw [Command.callee?_withSaved] at hcallee
    exact h.called (hresaved.stmts ▸ hstmt) hold hcallee
  case param =>
    intro stmt inst index dest hstmt hcommand
    obtain ⟨old, hold, hsame⟩ := hresaved.command_of hcommand
    rw [hresaved.rest]
    cases old with
    | save value dest' =>
        cases value with
        | param =>
            cases hsame
            exact h.param (hresaved.stmts ▸ hstmt) hold
        | load | unary | binary | call => cases hsame
    | call | use | label | jump | branch | ret | exit => cases hsame
  case bound =>
    intro access register hbound
    rw [bindings_rewritten] at hbound
    obtain ⟨key, -, hheld⟩ := found.binds.holds hbound
    rw [hresaved.tracks]
    exact hheld.tracks found.computed

end Body

namespace Pass

variable {steps : Nat} {pass : Pass} {changed : Bool} {pool : SymbolPool} {name : String}
  {body after : Body}

/-- **A PASS KEEPS A BODY SUPPLIED**. -/
theorem supplied_run (h : body.Supplied pool name)
    (hrun : pass.run steps body = .ok (changed, after)) : after.Supplied pool name := by
  have hoptimized : ofName? pass.name = some pass → after.Supplied pool name := by
    intro hpass
    obtain ⟨pieces, hpieces, hbindings⟩ := Body.pieces_run h.regular.wellFormed hpass hrun
    exact h.of_pieces hpieces hbindings
  cases pass with
  | copies | commonTerms | deadSaves => exact hoptimized rfl
  | registers palette =>
      obtain ⟨⟨summary, next⟩, hresult, hrun⟩ := Checked.bind_eq_ok hrun
      cases hrun
      exact h.allocated palette hresult

/-- Passes keep a body supplied. -/
theorem Runs.supplied {first : Body} (hruns : Runs first body) (h : first.Supplied pool name) :
    body.Supplied pool name := by
  induction hruns with
  | refl => exact h
  | next _ hrun ih => exact supplied_run ih hrun

/-- Passes run on the methods of a module one by one, and change nothing else. -/
theorem runOnMethods_eq_ok {passes : List Pass} {module module' : Module} {flags : List Bool}
    (h : runOnMethods steps passes module = .ok (flags, module')) :
    module'.symbols = module.symbols ∧ module'.globals = module.globals ∧
      List.Forall₂ Runs module.methods.toList module'.methods.toList := by
  obtain ⟨results, hresults, h⟩ := Checked.bind_eq_ok h
  cases h
  refine ⟨rfl, rfl, ?_⟩
  obtain ⟨hlength, hall⟩ := Checked.mapM_eq_ok hresults
  refine List.forall₂_iff_get.mpr ⟨by simp [hlength], fun i hi hi' => ?_⟩
  obtain ⟨⟨changed, after⟩, hresult, hrun⟩ := hall (List.getElem?_eq_getElem hi)
  have hafter : (results.map Prod.snd)[i]? = some after := by rw [List.getElem?_map, hresult]; rfl
  have hget : (results.map Prod.snd).toArray.toList.get ⟨i, hi'⟩ = after :=
    Option.some.inj ((List.getElem?_eq_getElem _).symm.trans hafter)
  rw [hget]
  exact Runs.of_runAll hrun

end Pass

namespace Lowering

open Source

/-- **LOWERING SUPPLIES** all that a body names. -/
theorem LoweredTo.supplied {pool : SymbolPool} {method : Method} {body : Body}
    (h : LoweredTo pool method body) : body.Supplied pool method.name := by
  -- every symbol interned while lowering still has its text later on
  obtain ⟨symbols, rfl, hlater⟩ := h
  obtain ⟨stage, h⟩ := lowerMethod_finished symbols method
  rw [← h.pool] at hlater
  rw [← h.body]
  constructor
  case regular => exact h.regular
  case name =>
    rw [h.keeps.name]
    exact hlater _ _ (h.keeps.symbols (SymbolPool.find?_intern symbols method.name))
  case named => exact fun hlocation hsymbol => hlater.names (h.sound.named hlocation hsymbol)
  case called =>
    exact fun hstmt hcommand hcallee => hlater.names (h.sound.called hstmt hcommand hcallee)
  case param =>
    intro stmt inst index dest hstmt hcommand
    obtain ⟨command, hcommand', hproper⟩ := h.sound.builder.commands stmt hstmt
    cases hcommand.symm.trans hcommand'
    exact Nat.lt_of_lt_of_le (hproper.param inst index dest rfl) h.arity
  case bound =>
    intro access register hbound
    rw [h.sound.builder.unbound] at hbound
    cases hbound

end Lowering

open Source Lowering in
/-- **THE END OF THE PIPELINE**: the fields and symbols are those of the lowered
    program, and every method has its body, in order. -/
theorem optimizedModule_supplied {steps : Nat} {options : CompileOptions} {program : Program}
    {module : Module} (h : optimizedModule steps options program = .ok module) :
    module.symbols = (lowerProgram program).symbols ∧
      module.globals = (lowerProgram program).globals ∧
      List.Forall₂ (fun method body => body.Supplied module.symbols method.name) program.methods
        module.methods.toList := by
  obtain ⟨⟨flags, module'⟩, hrun, rfl⟩ := Checked.map_eq_ok h
  obtain ⟨hsymbols, hglobals, hmethods⟩ := Pass.runOnMethods_eq_ok hrun
  refine ⟨hsymbols, hglobals, ?_⟩
  have hlowered := lowerProgram_methods program
  rw [← hsymbols] at hlowered
  obtain ⟨hlength, hlowered⟩ := List.forall₂_iff_get.mp hlowered
  obtain ⟨hlength', hmethods⟩ := List.forall₂_iff_get.mp hmethods
  refine List.forall₂_iff_get.mpr ⟨hlength.trans hlength', fun i hi hi' => ?_⟩
  have hlt : i < (lowerProgram program).methods.toList.length := hlength ▸ hi
  exact (hmethods i hlt hi').supplied (hlowered i hi hlt).supplied

end DecafBackend
