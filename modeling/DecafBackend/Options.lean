import DecafBackend.Optimize.Pass
import DecafBackend.Text.Blank

/-! # Options

    Which optimizations run, and which registers allocation may use. -/

namespace DecafBackend

/-- Which optimizations run before register allocation. -/
structure OptimizeOptions where
  /-- Whether copies are propagated. -/
  copies : Bool := true
  /-- Whether common subexpressions are eliminated. -/
  commonTerms : Bool := true
  /-- Whether dead saves are eliminated. -/
  deadSaves : Bool := true
deriving DecidableEq

namespace OptimizeOptions

/-- Every optimization turned off. -/
def off : OptimizeOptions := ⟨false, false, false⟩

/-- The optimizations to run, in order.  Reuse turns computations into
    copies, so copies are propagated on both sides of it. -/
def passes (options : OptimizeOptions) : List Pass :=
  (if options.copies then [.copies] else []) ++
    (if options.commonTerms then
      .commonTerms :: (if options.copies then [.copies] else [])
    else []) ++
    (if options.deadSaves then [.deadSaves] else [])

end OptimizeOptions

/-- How a program is compiled. -/
structure CompileOptions where
  /-- Which optimizations run. -/
  optimize : OptimizeOptions := {}
  /-- Whether variables may live in registers. -/
  allocate : Bool := true
  /-- The registers that allocation may use. -/
  palette : List Register := Register.defaultPalette
deriving DecidableEq

/-- The passes to run, register allocation included. -/
def CompileOptions.passes (options : CompileOptions) : List Pass :=
  options.optimize.passes ++ (if options.allocate then [.registers options.palette] else [])

/-- Why a list of registers is no palette. -/
inductive PaletteError
  /-- A name is not a register. -/
  | unknown (name : String)
  /-- A register cannot be allocated. -/
  | reserved (name : String)
  /-- No register is named. -/
  | empty
deriving DecidableEq

/-- The wording of a palette error. -/
def PaletteError.message : PaletteError → String
  | unknown name => s!"unknown register '{name}'"
  | reserved name => s!"register '{name}' is reserved"
  | empty => "palette must name at least one register"

/-- The register that a name in a palette means. -/
def paletteRegister (name : String) : Except PaletteError Register :=
  match Register.ofName? name with
  | none => .error (.unknown name)
  | some register => if register.isAllocatable then .ok register else .error (.reserved name)

/-- Reads a palette: names separated by commas, where white space around
    names and empty names do not matter. -/
def parsePalette (list : String) : Except PaletteError (List Register) := do
  let names := ((list.splitOn ",").map Text.trimmed).filter (· ≠ "")
  let palette ← names.mapM paletteRegister
  if palette.isEmpty then throw .empty else return palette

end DecafBackend
