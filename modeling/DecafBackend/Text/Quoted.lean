import DecafBackend.Text.Extender

/-! # Quoted text

    How a string literal is shown in a listing: in double quotes, with
    quotes, backslashes and the common controls escaped by a letter, and
    characters that would not show by their code in braces. -/

namespace DecafBackend.Text

/-- A number in hexadecimal, without leading zeros. -/
def hex (n : Nat) : String := String.ofList (Nat.toDigits 16 n)

/-- A character inside quoted text. -/
def quotedChar (c : Char) : String :=
  match c with
  | '"' => "\\\""
  | '\\' => "\\\\"
  | '\n' => "\\n"
  | '\r' => "\\r"
  | '\t' => "\\t"
  | c =>
    if c.toNat = 0 then "\\0"
    else if isUnprintable c || isExtender c then "\\u\x7b" ++ hex c.toNat ++ "\x7d"
    else c.toString

/-- A text in double quotes. -/
def quoted (text : String) : String :=
  text.foldl (fun out c => out ++ quotedChar c) "\"" ++ "\""

end DecafBackend.Text
