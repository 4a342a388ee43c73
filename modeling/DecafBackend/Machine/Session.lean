import DecafBackend.Machine.Assembly
import Std.Data.ExtTreeSet

/-! # Sessions

    What the emission of a program collects across methods: the fields, the
    literal texts, and the external names.  Fields and texts are labelled by
    their position. -/

namespace DecafBackend

/-- What has been collected so far. -/
structure Session where
  /-- The fields in order of declaration. -/
  globals : List String := []
  /-- The literal texts in order of first use. -/
  texts : List String := []
  /-- The external names. -/
  externs : Std.ExtTreeSet String := ∅

namespace Session

/-- The label of the field at a position. -/
def globalLabel (position : Nat) : String := s!"field{position}"

/-- The label of a literal text at a position: up to eight letters and digits
    of the text, and the position. -/
def textLabel (text : String) (position : Nat) : String :=
  "s_" ++ String.ofList ((text.toList.filter Char.isAlphanum).take 8) ++ toString position

/-- The label of a field, if it is declared. -/
def global? (session : Session) (name : String) : Option String :=
  (session.globals.idxOf? name).map globalLabel

/-- Declares a field and gives its label. -/
def declareGlobal (session : Session) (name : String) : String × Session :=
  match session.global? name with
  | some label => (label, session)
  | none =>
    (globalLabel session.globals.length, { session with globals := session.globals ++ [name] })

/-- Gives the label of a literal text, which is added if it is new. -/
def internText (session : Session) (text : String) : String × Session :=
  match session.texts.idxOf? text with
  | some position => (textLabel text position, session)
  | none =>
    (textLabel text session.texts.length, { session with texts := session.texts ++ [text] })

/-- Records an external name. -/
def addExtern (session : Session) (name : String) : Session :=
  { session with externs := session.externs.insert name }

/-- The program made of what was collected and the code of the methods. -/
def finish (session : Session) (functions : List Function) : Assembly where
  externs := session.externs.toList
  data := (List.range session.globals.length).map globalLabel
  texts := session.texts.zipIdx.map fun (text, position) => ⟨textLabel text position, text⟩
  functions := functions

end Session

end DecafBackend
