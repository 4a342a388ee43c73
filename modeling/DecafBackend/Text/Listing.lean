/-! # Listings

    How collections are written on one line: lists in square brackets, sets
    and maps in braces, records as a name with its fields in braces. -/

namespace DecafBackend.Text

/-- Parts separated by a comma and a blank. -/
def commaSeparated (parts : List String) : String := String.intercalate ", " parts

/-- A list: its parts in square brackets. -/
def list (parts : List String) : String := "[" ++ commaSeparated parts ++ "]"

/-- A set: its parts in braces. -/
def set (parts : List String) : String := "\x7b" ++ commaSeparated parts ++ "\x7d"

/-- A map: its entries in braces, a colon after each key. -/
def map (entries : List (String × String)) : String :=
  set (entries.map fun (key, value) => key ++ ": " ++ value)

/-- A record: its name, then its fields in braces, set off by blanks. -/
def record (name : String) (fields : List (String × String)) : String :=
  name ++ " \x7b " ++ commaSeparated (fields.map fun (field, value) => field ++ ": " ++ value)
    ++ " \x7d"

/-- A value that may be absent. -/
def optional : Option String → String
  | none => "None"
  | some text => "Some(" ++ text ++ ")"

/-- A truth value. -/
def bool (b : Bool) : String := if b then "true" else "false"

end DecafBackend.Text
