import DecafBackend.IR.Serialized
import DecafBackend.Machine.Assembly

/-! # Assembly as JSON

    An operand or an instruction is an array: its name, and then its parts.
    A program is an object with a member for each section. -/

namespace DecafBackend

/-- The condition with a name. -/
def Condition.ofSuffix? (name : String) : Option Condition :=
  [Condition.e, .ne, .l, .le, .g, .ge].find? fun condition => condition.suffix == name

/-- The operation with a name. -/
def AluOp.ofMnemonic? (name : String) : Option AluOp :=
  [AluOp.add, .sub, .imul, .cmp, .xor, .test].find? fun op => op.mnemonic == name

/-- The register that a JSON string names, in any case of its letters. -/
def Register.named? (json : Json) : Option Register := json.string?.bind Register.ofName?

/-- Reads an operand. -/
def Operand.ofJson? : Json → Option Operand
  | .array [.string "reg", register] => do return reg (← Register.named? register)
  | .array [.string "imm", value] => do return imm (← value.int64?)
  | .array [.string "frame", offset] => do return frame (← offset.int32?).toInt
  | .array [.string "data", label] => do return data (← label.string?)
  | _ => none

/-- Reads the condition of a conditional instruction. -/
def Condition.ofJson? (json : Json) : Option Condition := json.string?.bind ofSuffix?

/-- Reads an instruction. -/
def Instruction.ofJson? : Json → Option Instruction
  | .array [.string "cqo"] => some cqo
  | .array [.string "ret"] => some ret
  | .array [.string name, part] =>
    match name with
    | "label" => label <$> part.string?
    | "neg" => neg <$> Register.named? part
    | "idiv" => idiv <$> Register.named? part
    | "push" => push <$> Operand.ofJson? part
    | "pop" => pop <$> Register.named? part
    | "jmp" => jmp <$> part.string?
    | "call" => call <$> part.string?
    | "comment" => comment <$> part.string?
    | _ => none
  | .array [.string name, first, second] =>
    match name with
    | "mov" => do return mov (← Operand.ofJson? first) (← Operand.ofJson? second)
    | "lea" => do return lea (← Register.named? first) (← second.string?)
    | "set" => do return set (← Condition.ofJson? first) (← Register.named? second)
    | "jcc" => do return jcc (← Condition.ofJson? first) (← second.string?)
    | _ => do
      return alu (← AluOp.ofMnemonic? name) (← Operand.ofJson? first) (← Operand.ofJson? second)
  | _ => none

/-- Reads a function: its name and its instructions. -/
def Function.ofJson? : Json → Option Function
  | .array [.string name, code] => do
    return { name, code := ← code.list? Instruction.ofJson? }
  | _ => none

/-- Reads a literal text: its label and the text. -/
def TextEntry.ofJson? : Json → Option TextEntry
  | .array [.string label, .string text] => some { label, text }
  | _ => none

/-- The lines of every instruction of a function. -/
def Function.lines (function : Function) : Checked (List String) :=
  function.code.mapM Instruction.render

namespace Assembly

/-- Reads a program. -/
def ofJson? (json : Json) : Option Assembly := do
  match ← json.members? ["externs", "data", "rodata", "text"] with
  | [externs, data, texts, functions] =>
    return {
      externs := ← Json.field (Json.list? Json.string?) externs
      data := ← Json.field (Json.list? Json.string?) data
      texts := ← Json.field (Json.list? TextEntry.ofJson?) texts
      functions := ← Json.field (Json.list? Function.ofJson?) functions }
  | _ => none

/-- The sections of a program, with the code of functions as printed lines. -/
def sections (program : Assembly) : Checked (List (String × Json)) := do
  let functions ← program.functions.mapM fun function => do
    return (function.name, ← function.lines)
  let texts := program.texts.map fun entry => (entry.label, entry.text)
  return [("externs", json program.externs), ("data", json program.data),
    ("rodata", json texts), ("text", json functions)]

end Assembly

end DecafBackend
