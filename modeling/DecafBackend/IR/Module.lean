import DecafBackend.IR.Body

/-! # Modules

    A module is a whole lowered program: its fields, its methods, and the
    symbols that both of them use. -/

namespace DecafBackend

/-- A lowered program. -/
structure Module where
  /-- The symbols of the program. -/
  symbols : SymbolPool := {}
  /-- The fields in order of declaration. -/
  globals : List Symbol := []
  /-- The methods in order of declaration. -/
  methods : Array Body := #[]

namespace Module

/-- Interns a text. -/
def intern (module : Module) (text : String) : Symbol × Module :=
  let (symbol, symbols) := module.symbols.intern text
  (symbol, { module with symbols })

/-- Declares a field; declaring it again changes nothing. -/
def addGlobal (module : Module) (name : Symbol) : Module :=
  if module.globals.contains name then module
  else { module with globals := module.globals ++ [name] }

/-- Adds a method. -/
def addMethod (module : Module) (body : Body) : Module :=
  { module with methods := module.methods.push body }

/-- The first method with a name. -/
def method? (module : Module) (name : String) : Option Body := do
  let symbol ← module.symbols.find? name
  module.methods.find? fun body => body.name == symbol

end Module

end DecafBackend
