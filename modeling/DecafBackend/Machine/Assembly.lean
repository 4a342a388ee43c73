import DecafBackend.Machine.Register

/-! # Assembly

    Programs as lists of machine instructions, with the sections for data,
    literal texts and external names, and how they are printed.

    * `Operand`, `Instruction` — one line of code, or two for `set`
    * `Assembly` — a whole program
    * `escapeText` — literal texts inside backquotes -/

namespace DecafBackend

/-- A condition on the flags of a comparison. -/
inductive Condition
  | e | ne | l | le | g | ge
deriving DecidableEq

/-- The letters that name a condition. -/
def Condition.suffix : Condition → String
  | e => "e" | ne => "ne" | l => "l" | le => "le" | g => "g" | ge => "ge"

/-- An arithmetic or logical operation with two operands. -/
inductive AluOp
  | add | sub | imul | cmp | xor | test
deriving DecidableEq

/-- The name of an operation. -/
def AluOp.mnemonic : AluOp → String
  | add => "add" | sub => "sub" | imul => "imul" | cmp => "cmp" | xor => "xor" | test => "test"

/-- Where an operand is. -/
inductive Operand
  /-- In a register. -/
  | reg (register : Register)
  /-- In the instruction. -/
  | imm (value : Int64)
  /-- In the stack frame, at an offset from the frame pointer. -/
  | frame (offset : Int)
  /-- In the data section, at a label. -/
  | data (label : String)
deriving DecidableEq

/-- Tests that a number fits a signed 32-bit integer. -/
def fit32 (n : Int) : Checked Int :=
  if -2147483648 ≤ n ∧ n ≤ 2147483647 then .ok n else .error .overflow

/-- Tests that a number of bytes fits a signed 64-bit integer. -/
def fit64 (n : Nat) : Checked Nat :=
  if n ≤ 9223372036854775807 then .ok n else .error .overflow

/-- An operand as printed.  A negative offset is printed as its opposite,
    which has to be a 32-bit integer too. -/
def Operand.render : Operand → Checked String
  | reg register => return register.name
  | imm value => return toString value.toInt
  | frame offset => do
    if offset < 0 then
      let distance ← fit32 (-offset)
      return s!"qword [rbp - {distance}]"
    else return s!"qword [rbp + {offset}]"
  | data label => return s!"qword [rel {label}]"

/-- A machine instruction. -/
inductive Instruction
  /-- A jump target inside the function. -/
  | label (name : String)
  /-- Copies a word. -/
  | mov (dest src : Operand)
  /-- Takes the address of a label. -/
  | lea (dest : Register) (symbol : String)
  /-- An operation with two operands, the first of which takes the result. -/
  | alu (op : AluOp) (dest src : Operand)
  /-- Negates a register. -/
  | neg (register : Register)
  /-- Extends the sign of `rax` into `rdx`. -/
  | cqo
  /-- Divides `rdx:rax` by a register. -/
  | idiv (register : Register)
  /-- Sets a register to one or zero by a condition. -/
  | set (condition : Condition) (register : Register)
  /-- Pushes a word. -/
  | push (operand : Operand)
  /-- Pops a word. -/
  | pop (register : Register)
  /-- Jumps to a label. -/
  | jmp (target : String)
  /-- Jumps to a label under a condition. -/
  | jcc (condition : Condition) (target : String)
  /-- Calls a function. -/
  | call (target : String)
  /-- Returns to the caller. -/
  | ret
  /-- A remark. -/
  | comment (text : String)
deriving DecidableEq

/-- An instruction as printed.  Setting a register sets its low byte, which
    is then extended with zeros on a line of its own. -/
def Instruction.render : Instruction → Checked String
  | label name => return name ++ ":"
  | mov dest src => do return "    mov " ++ (← dest.render) ++ ", " ++ (← src.render)
  | lea dest symbol => return s!"    lea {dest.name}, [rel {symbol}]"
  | alu op dest src => do
    return "    " ++ op.mnemonic ++ " " ++ (← dest.render) ++ ", " ++ (← src.render)
  | neg register => return s!"    neg {register.name}"
  | cqo => return "    cqo"
  | idiv register => return s!"    idiv {register.name}"
  | set condition register =>
    return s!"    set{condition.suffix} {register.byteName}\n"
      ++ s!"    movzx {register.name}, {register.byteName}"
  | push operand => do return "    push " ++ (← operand.render)
  | pop register => return s!"    pop {register.name}"
  | jmp target => return s!"    jmp {target}"
  | jcc condition target => return s!"    j{condition.suffix} {target}"
  | call target => return s!"    call {target}"
  | ret => return "    ret"
  | comment text => return s!"    ; {text}"

/-- The code of one method. -/
structure Function where
  /-- The name. -/
  name : String
  /-- The instructions in order. -/
  code : List Instruction
deriving DecidableEq

/-- A literal text in the read-only section. -/
structure TextEntry where
  /-- The label of the text. -/
  label : String
  /-- The text. -/
  text : String
deriving DecidableEq

/-- An assembly program. -/
structure Assembly where
  /-- The external names. -/
  externs : List String := []
  /-- The labels of the words of the data section. -/
  data : List String := []
  /-- The literal texts. -/
  texts : List TextEntry := []
  /-- The functions. -/
  functions : List Function := []
deriving DecidableEq

/-- The character around literal texts. -/
def backquote : Char := Char.ofNat 96

/-- A character inside a backquoted text. -/
def escapeTextChar (c : Char) : List Char :=
  if c = '\\' then ['\\', '\\']
  else if c = backquote then ['\\', backquote]
  else if c = '\n' then ['\\', 'n']
  else if c = '\t' then ['\\', 't']
  else if c = '\r' then ['\\', 'r']
  else if c.toNat = 0 then ['\\', '0']
  else [c]

/-- A text as it is written between backquotes. -/
def escapeText (text : String) : String := String.ofList (text.toList.flatMap escapeTextChar)

namespace Assembly

/-- The first function with a name. -/
def function? (program : Assembly) (name : String) : Option Function :=
  program.functions.find? fun function => function.name == name

/-- A function as printed. -/
def renderFunction (function : Function) : Checked String := do
  let lines ← function.code.mapM fun instruction => do return (← instruction.render) ++ "\n"
  return s!"\n    global {function.name}\n{function.name}:\n" ++ String.join lines

/-- A program as printed. -/
def render (program : Assembly) : Checked String := do
  let externs := program.externs.map fun name => s!"extern {name}\n"
  let data := program.data.map fun label => s!"{label}:\n    dq 0\n"
  let texts := program.texts.map fun entry =>
    s!"{entry.label}:\n    db `" ++ escapeText entry.text ++ "`,0\n"
  let functions ← program.functions.mapM renderFunction
  return String.join externs ++ "\nsection .data\n" ++ String.join data
    ++ "\nsection .rodata\n" ++ String.join texts ++ "\nsection .text\n" ++ String.join functions

end Assembly

end DecafBackend
