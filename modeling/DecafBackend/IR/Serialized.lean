import DecafBackend.IR.Bindings
import DecafBackend.Json.Form

/-! # Records and locations as JSON

    An alternative is an object with one member, named for the alternative,
    whose value holds the fields by name. -/

namespace DecafBackend

/-- An operator by its mnemonic. -/
def BinaryOp.ofJson? (json : Json) : Option BinaryOp := json.tag?.bind ofMnemonic?

/-- An operator by its mnemonic. -/
def UnaryOp.ofJson? (json : Json) : Option UnaryOp := json.tag?.bind ofMnemonic?

namespace Register

/-- A register as JSON: its name. -/
def toJson (register : Register) : Json := .string register.name

/-- Reads a register; its name is written in lower case. -/
def ofJson? (json : Json) : Option Register := do
  let tag ← json.tag?
  all.find? fun register => register.name == tag

instance : JsonForm Register := ⟨toJson⟩

end Register

instance : JsonForm Access := ⟨fun access => json (access.inst, access.loc)⟩

namespace Location

/-- A location as JSON. -/
def toJson : Location → Json
  | global name => .object [("Global", .object [("name", name.toJson)])]
  | localVar name => .object [("Local", .object [("name", name.toJson)])]
  | temp => .string "Temp"
  | constant value => .object [("Constant", .int value.toInt)]
  | literal text => .object [("Str", text.toJson)]

/-- Reads a location. -/
def ofJson? (json : Json) : Option Location := do
  match ← json.variant? with
  | ("Temp", none) | ("Temp", some .null) => return temp
  | ("Global", some payload) =>
    match ← payload.members? ["name"] with
    | [name] => return global (← Json.field Key.ofJson? name)
    | _ => none
  | ("Local", some payload) =>
    match ← payload.members? ["name"] with
    | [name] => return localVar (← Json.field Key.ofJson? name)
    | _ => none
  | ("Constant", some payload) => return constant (← payload.int64?)
  | ("Str", some payload) => return literal (← Key.ofJson? payload)
  | _ => none

end Location

namespace Record

/-- A record as JSON. -/
def toJson : Record → Json
  | load src => .object [("Load", .object [("src", src.toJson)])]
  | param index => .object [("Param", .object [("index", .nat index)])]
  | binary op lhs rhs =>
    .object [("Binary", .object [("op", .string op.mnemonic), ("lhs", lhs.toJson),
      ("rhs", rhs.toJson)])]
  | unary op operand =>
    .object [("Unary", .object [("op", .string op.mnemonic), ("operand", operand.toJson)])]
  | call target args isExternal saved =>
    .object [("Call", .object [("target", target.toJson), ("args", .ofList Key.toJson args),
      ("external", .bool isExternal), ("saved", .ofList Register.toJson saved)])]
  | save value dest =>
    .object [("Save", .object [("value", value.toJson), ("dest", dest.toJson)])]
  | use loc => .object [("Use", .object [("loc", loc.toJson)])]
  | label place => .object [("Label", place.toJson)]
  | jump target => .object [("Jump", .object [("target", target.toJson)])]
  | branch cond target =>
    .object [("Branch", .object [("cond", cond.toJson), ("target", target.toJson)])]
  | ret value => .object [("Return", .object [("value", .ofOption Key.toJson value)])]
  | exit code => .object [("Exit", .object [("code", .int code.toInt)])]

/-- Reads the fields of a record with a tag. -/
def ofPayload? (tag : String) (payload : Json) : Option Record := do
  match tag with
  | "Load" =>
    match ← payload.members? ["src"] with
    | [src] => return load (← Json.field Key.ofJson? src)
    | _ => none
  | "Param" =>
    match ← payload.members? ["index"] with
    | [index] => return param (← Json.field (Json.nat? 32) index)
    | _ => none
  | "Binary" =>
    match ← payload.members? ["op", "lhs", "rhs"] with
    | [op, lhs, rhs] =>
      return binary (← Json.field BinaryOp.ofJson? op) (← Json.field Key.ofJson? lhs)
        (← Json.field Key.ofJson? rhs)
    | _ => none
  | "Unary" =>
    match ← payload.members? ["op", "operand"] with
    | [op, operand] =>
      return unary (← Json.field UnaryOp.ofJson? op) (← Json.field Key.ofJson? operand)
    | _ => none
  | "Call" =>
    match ← payload.members? ["target", "args", "external", "saved"] with
    | [target, args, isExternal, saved] =>
      return call (← Json.field Key.ofJson? target) (← Json.field (Json.list? Key.ofJson?) args)
        (← Json.field Json.bool? isExternal) (← Json.field (Json.list? Register.ofJson?) saved)
    | _ => none
  | "Save" =>
    match ← payload.members? ["value", "dest"] with
    | [value, dest] =>
      return save (← Json.field Key.ofJson? value) (← Json.field Key.ofJson? dest)
    | _ => none
  | "Use" =>
    match ← payload.members? ["loc"] with
    | [loc] => return use (← Json.field Key.ofJson? loc)
    | _ => none
  | "Label" => return label (← Key.ofJson? payload)
  | "Jump" =>
    match ← payload.members? ["target"] with
    | [target] => return jump (← Json.field Key.ofJson? target)
    | _ => none
  | "Branch" =>
    match ← payload.members? ["cond", "target"] with
    | [cond, target] =>
      return branch (← Json.field Key.ofJson? cond) (← Json.field Key.ofJson? target)
    | _ => none
  | "Return" =>
    match ← payload.members? ["value"] with
    | [none] => return ret none
    | [some value] => return ret (← value.nullable? Key.ofJson?)
    | _ => none
  | "Exit" =>
    match ← payload.members? ["code"] with
    | [code] => return exit (← Json.field Json.int32? code)
    | _ => none
  | _ => none

/-- Reads a record. -/
def ofJson? (json : Json) : Option Record := do
  match ← json.variant? with
  | (tag, some payload) => ofPayload? tag payload
  | _ => none

end Record

end DecafBackend
