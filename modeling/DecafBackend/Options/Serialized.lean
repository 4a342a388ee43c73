import DecafBackend.IR.Serialized
import DecafBackend.Options

/-! # Options as JSON

    A switch that is not given is on.  A palette is a list of names in one
    string, which is checked, or an array of names, which is taken as it is. -/

namespace DecafBackend

/-- A switch, which is on unless it is given. -/
def readSwitch : Option Json → Option Bool
  | some json => json.bool?
  | none => some true

/-- Reads a palette. -/
def readPalette : Option Json → Option (Except PaletteError (List Register))
  | none => some (.ok Register.defaultPalette)
  | some (.string names) => some (parsePalette names)
  | some json => Except.ok <$> json.list? fun name => name.string?.bind Register.ofName?

namespace CompileOptions

/-- Options as JSON. -/
def toJson (options : CompileOptions) : Json :=
  .object [("copy_prop", json options.optimize.copies),
    ("cse", json options.optimize.commonTerms), ("dce", json options.optimize.deadSaves),
    ("regalloc", json options.allocate), ("palette", json options.palette)]

/-- Reads options. -/
def ofJson? (json : Json) : Option (Except PaletteError CompileOptions) := do
  match ← json.members? ["copy_prop", "cse", "dce", "regalloc", "palette"] with
  | [copies, terms, dead, allocate, palette] =>
    let optimize := ⟨← readSwitch copies, ← readSwitch terms, ← readSwitch dead⟩
    let allocate ← readSwitch allocate
    return (← readPalette palette).map fun palette => { optimize, allocate, palette }
  | _ => none

end CompileOptions

end DecafBackend
