import DecafBackend.Key

/-! # Registers

    The sixteen general-purpose registers, which of them a callee may change,
    and the roles that the calling convention and emission give them. -/

namespace DecafBackend

/-- A general-purpose register. -/
inductive Register
  | rax | rbx | rcx | rdx | rsi | rdi | rbp | rsp
  | r8 | r9 | r10 | r11 | r12 | r13 | r14 | r15
deriving DecidableEq

namespace Register

/-- Every register, in order. -/
def all : List Register :=
  [rax, rbx, rcx, rdx, rsi, rdi, rbp, rsp, r8, r9, r10, r11, r12, r13, r14, r15]

/-- The position of a register among all registers. -/
def number : Register → Nat
  | rax => 0 | rbx => 1 | rcx => 2 | rdx => 3 | rsi => 4 | rdi => 5 | rbp => 6 | rsp => 7
  | r8 => 8 | r9 => 9 | r10 => 10 | r11 => 11 | r12 => 12 | r13 => 13 | r14 => 14 | r15 => 15

/-- Registers with one number are the same. -/
theorem number_injective (a b : Register) (h : a.number = b.number) : a = b := by
  cases a <;> cases b <;> first | rfl | cases h

instance : Ord Register := ⟨compareOn number⟩

instance : Std.TransOrd Register := inferInstanceAs (Std.TransCmp (compareOn number))

instance : Std.LawfulEqOrd Register := lawfulEqCmp_compareOn number_injective

/-- The assembler name of a register. -/
def name : Register → String
  | rax => "rax" | rbx => "rbx" | rcx => "rcx" | rdx => "rdx"
  | rsi => "rsi" | rdi => "rdi" | rbp => "rbp" | rsp => "rsp"
  | r8 => "r8" | r9 => "r9" | r10 => "r10" | r11 => "r11"
  | r12 => "r12" | r13 => "r13" | r14 => "r14" | r15 => "r15"

/-- The assembler name of a register's low byte. -/
def byteName : Register → String
  | rax => "al" | rbx => "bl" | rcx => "cl" | rdx => "dl"
  | rsi => "sil" | rdi => "dil" | rbp => "bpl" | rsp => "spl"
  | r8 => "r8b" | r9 => "r9b" | r10 => "r10b" | r11 => "r11b"
  | r12 => "r12b" | r13 => "r13b" | r14 => "r14b" | r15 => "r15b"

/-- The name of a register in listings of records. -/
def describe : Register → String
  | rax => "Rax" | rbx => "Rbx" | rcx => "Rcx" | rdx => "Rdx"
  | rsi => "Rsi" | rdi => "Rdi" | rbp => "Rbp" | rsp => "Rsp"
  | r8 => "R8" | r9 => "R9" | r10 => "R10" | r11 => "R11"
  | r12 => "R12" | r13 => "R13" | r14 => "R14" | r15 => "R15"

/-- The register with a name, where the case of ASCII letters does not
    matter. -/
def ofName? (name : String) : Option Register :=
  all.find? fun register => register.name == name.map Char.toLower

/-- Whether a callee may change the register without restoring it. -/
def isCallerSaved : Register → Bool
  | rax | rcx | rdx | rsi | rdi | r8 | r9 | r10 | r11 => true
  | _ => false

/-- Whether a callee has to preserve the register. -/
def isCalleeSaved (register : Register) : Bool := !register.isCallerSaved

/-- The registers of the first six arguments, in order. -/
def arguments : List Register := [rdi, rsi, rdx, rcx, r8, r9]

/-- The registers for values that live inside one statement. -/
def scratch : List Register := [r10, r11]

/-- The registers that allocation uses unless told otherwise. -/
def defaultPalette : List Register := [r12, r13, r14, r15]

/-- Whether allocation may hand the register out: emission needs the stack
    and frame pointers, the scratch registers, and the two registers of
    results and division for itself. -/
def isAllocatable : Register → Bool
  | rax | rdx | rbp | rsp | r10 | r11 => false
  | _ => true

end Register

end DecafBackend
