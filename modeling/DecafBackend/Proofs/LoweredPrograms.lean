import DecafBackend.Proofs.LoweredBodies

/-! # Lowered programs

    The fields of a program are declared one after another, and then its methods are
    lowered in order.  Symbols that have been given out keep their texts.

    * `SymbolPool.Later` — symbols are added only
    * `lowerProgram_fields` — the symbols of the fields
    * `LoweredTo`, `lowerProgram_methods` — the bodies of the methods, in order -/

namespace DecafBackend

/-- A later pool finds the texts that an earlier one finds. -/
def SymbolPool.Later (early late : SymbolPool) : Prop :=
  ∀ text symbol, early.find? text = some symbol → late.find? text = some symbol

namespace SymbolPool.Later

theorem refl (pool : SymbolPool) : Later pool pool := fun _ _ h => h

theorem trans {a b c : SymbolPool} (h₁ : Later a b) (h₂ : Later b c) : Later a c :=
  fun text symbol h => h₂ text symbol (h₁ text symbol h)

/-- A symbol with a name keeps one. -/
theorem names {early late : SymbolPool} (h : Later early late) {symbol : Symbol}
    (hnames : early.Names symbol) : late.Names symbol :=
  hnames.imp fun text hfind => h text symbol hfind

theorem intern (pool : SymbolPool) (text : String) : Later pool (pool.intern text).2 :=
  fun _ _ h => find?_intern_of_some h

end SymbolPool.Later

namespace Module

variable {module : Module} {name symbol : Symbol}

/-- A global needs no new symbol. -/
theorem addGlobal_symbols (module : Module) (name : Symbol) :
    (module.addGlobal name).symbols = module.symbols := by
  rw [addGlobal]
  split <;> rfl

/-- A global changes no method. -/
theorem addGlobal_methods (module : Module) (name : Symbol) :
    (module.addGlobal name).methods = module.methods := by
  rw [addGlobal]
  split <;> rfl

/-- The globals of a module and a new one. -/
theorem mem_addGlobal : symbol ∈ (module.addGlobal name).globals ↔
    symbol ∈ module.globals ∨ symbol = name := by
  rw [addGlobal]
  split
  · next hmem =>
      have hmem : name ∈ module.globals := List.contains_iff_mem.mp hmem
      exact ⟨Or.inl, fun h => h.elim id fun heq => heq ▸ hmem⟩
  · rw [List.mem_append, List.mem_singleton]

end Module

namespace Lowering

open Source

/-- Declares a field. -/
def addField (module : Module) (field : String) : Module :=
  let (name, module) := module.intern field
  module.addGlobal name

/-- Lowers a method and adds its body. -/
def addLowered (module : Module) (method : Method) : Module :=
  let (body, symbols) := lowerMethod module.symbols method
  { module with symbols }.addMethod body

/-- The fields are added first, the methods behind them. -/
theorem lowerProgram_eq (program : Program) :
    lowerProgram program = program.methods.foldl addLowered (program.fields.foldl addField {}) :=
  rfl

/-! ## Fields -/

/-- A field is interned. -/
theorem addField_symbols (module : Module) (field : String) :
    (addField module field).symbols = (module.symbols.intern field).2 :=
  Module.addGlobal_symbols _ _

/-- A field changes no method. -/
theorem addField_methods (module : Module) (field : String) :
    (addField module field).methods = module.methods :=
  Module.addGlobal_methods _ _

/-- A field is a global. -/
theorem mem_addField {module : Module} {field : String} {symbol : Symbol} :
    symbol ∈ (addField module field).globals ↔
      symbol ∈ module.globals ∨ symbol = (module.symbols.intern field).1 :=
  Module.mem_addGlobal

/-- All the fields become globals, and nothing else does. -/
theorem foldl_fields (fields : List String) (module : Module) :
    module.symbols.Later (fields.foldl addField module).symbols ∧
      (fields.foldl addField module).methods = module.methods ∧
      ∀ symbol, symbol ∈ (fields.foldl addField module).globals ↔ symbol ∈ module.globals ∨
        ∃ field ∈ fields, (fields.foldl addField module).symbols.find? field = some symbol := by
  -- the symbol of a field stays its symbol while the other fields are added
  induction fields generalizing module with
  | nil => exact ⟨SymbolPool.Later.refl _, rfl, fun symbol => by simp⟩
  | cons field fields ih =>
      obtain ⟨hlater, hmethods, hglobals⟩ := ih (addField module field)
      have hfield := hlater field _
        (addField_symbols module field ▸ SymbolPool.find?_intern module.symbols field)
      refine ⟨?_, hmethods.trans (addField_methods module field), fun symbol => ?_⟩
      · have hintern := SymbolPool.Later.intern module.symbols field
        rw [← addField_symbols] at hintern
        exact hintern.trans hlater
      · rw [List.foldl_cons, hglobals, mem_addField, or_assoc]
        refine or_congr_right ?_
        simp only [List.mem_cons, exists_eq_or_imp, hfield, Option.some.injEq]
        exact or_congr_left eq_comm

/-! ## Methods -/

/-- A body that a method of a program is lowered to, with the symbols of the whole
    program. -/
def LoweredTo (pool : SymbolPool) (method : Method) (body : Body) : Prop :=
  ∃ symbols, body = (lowerMethod symbols method).1 ∧ (lowerMethod symbols method).2.Later pool

/-- Lowering a method keeps every symbol. -/
theorem lowerMethod_later (symbols : SymbolPool) (method : Method) :
    symbols.Later (lowerMethod symbols method).2 := by
  obtain ⟨stage, h⟩ := lowerMethod_finished symbols method
  intro text symbol hfind
  rw [← h.pool]
  exact h.keeps.symbols (SymbolPool.find?_intern_of_some hfind)

/-- **METHODS** are lowered one after the other, each with a later pool. -/
theorem foldl_methods (methods : List Method) (module : Module) :
    module.symbols.Later (methods.foldl addLowered module).symbols ∧
      (methods.foldl addLowered module).globals = module.globals ∧
      ∃ bodies, (methods.foldl addLowered module).methods.toList = module.methods.toList ++ bodies ∧
        List.Forall₂ (LoweredTo (methods.foldl addLowered module).symbols) methods bodies := by
  induction methods generalizing module with
  | nil => exact ⟨SymbolPool.Later.refl _, rfl, [], (List.append_nil _).symm, .nil⟩
  -- what one method adds to the symbols comes before what the others add
  | cons method methods ih =>
      obtain ⟨hlater, hglobals, bodies, hbodies, hall⟩ := ih (addLowered module method)
      refine ⟨(lowerMethod_later module.symbols method).trans hlater, hglobals,
        (lowerMethod module.symbols method).1 :: bodies, ?_, .cons ⟨_, rfl, hlater⟩ hall⟩
      rw [List.foldl_cons, hbodies]
      show (module.methods.push _).toList ++ bodies = _
      rw [Array.toList_push, List.append_assoc]
      rfl

/-- A field has a symbol before the methods are lowered. -/
theorem find?_field {fields : List String} {field : String} (hfield : field ∈ fields) :
    ∃ symbol, (fields.foldl addField {}).symbols.find? field = some symbol := by
  obtain ⟨before, after, hsplit⟩ := List.append_of_mem hfield
  rw [hsplit, List.foldl_append, List.foldl_cons]
  have hdeclared := addField_symbols (before.foldl addField {}) field ▸
    SymbolPool.find?_intern (before.foldl addField {}).symbols field
  exact ⟨_, (foldl_fields after _).1 field _ hdeclared⟩

/-- Every field has a symbol in the lowered program. -/
theorem lowerProgram_find?_field {program : Program} {field : String}
    (hfield : field ∈ program.fields) :
    ∃ symbol, (lowerProgram program).symbols.find? field = some symbol := by
  rw [lowerProgram_eq]
  obtain ⟨symbol, hfind⟩ := find?_field hfield
  exact ⟨symbol, (foldl_methods program.methods _).1 field symbol hfind⟩

/-- **THE FIELDS OF A LOWERED PROGRAM** are the symbols of its fields. -/
theorem lowerProgram_fields (program : Program) (symbol : Symbol) :
    symbol ∈ (lowerProgram program).globals ↔
      ∃ field ∈ program.fields, (lowerProgram program).symbols.find? field = some symbol := by
  rw [lowerProgram_eq]
  obtain ⟨-, -, hfields⟩ := foldl_fields program.fields {}
  obtain ⟨hlater, hglobals, -⟩ := foldl_methods program.methods (program.fields.foldl addField {})
  rw [hglobals, hfields, or_iff_right List.not_mem_nil]
  constructor
  · rintro ⟨field, hfield, hfind⟩
    exact ⟨field, hfield, hlater field symbol hfind⟩
  · rintro ⟨field, hfield, hfind⟩
    obtain ⟨symbol', hfind'⟩ := find?_field hfield
    cases (hlater field symbol' hfind').symm.trans hfind
    exact ⟨field, hfield, hfind'⟩

/-- **THE METHODS OF A LOWERED PROGRAM**, in order. -/
theorem lowerProgram_methods (program : Program) :
    List.Forall₂ (LoweredTo (lowerProgram program).symbols) program.methods
      (lowerProgram program).methods.toList := by
  rw [lowerProgram_eq]
  obtain ⟨-, hnone, -⟩ := foldl_fields program.fields {}
  obtain ⟨-, -, bodies, hbodies, hall⟩ :=
    foldl_methods program.methods (program.fields.foldl addField {})
  rw [hbodies, hnone]
  exact hall

/-- Every body of a lowered program is that of a method. -/
theorem exists_lowered {program : Program} {body : Body}
    (hbody : body ∈ (lowerProgram program).methods) :
    ∃ method ∈ program.methods, LoweredTo (lowerProgram program).symbols method body := by
  obtain ⟨i, hi, rfl⟩ := List.mem_iff_getElem.mp (Array.mem_toList_iff.mpr hbody)
  have hall := lowerProgram_methods program
  have hlt : i < program.methods.length := hall.length_eq ▸ hi
  exact ⟨_, List.getElem_mem hlt, (List.forall₂_iff_get.mp hall).2 i hlt hi⟩

end Lowering

end DecafBackend
