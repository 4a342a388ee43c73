import DecafBackend.Options

/-! # Command lines

    Arguments are first cut into items: options with their names, words, and
    values that are written in one piece with their option.  Then every
    option takes its items by name, and the words left over are the inputs.
    Anything else left over makes the command line invalid.

    * `Item`, `items` — how arguments are cut
    * `takeFlag`, `takeValue` — how options take items
    * `parse` — the invocation that arguments mean -/

namespace DecafBackend.CommandLine

/-- A part of a command line. -/
inductive Item
  /-- An option named by a letter. -/
  | short (letter : Char)
  /-- An option named by a word. -/
  | long (name : String)
  /-- A word on its own. -/
  | word (text : String)
  /-- A value in one piece with the option before it. -/
  | attached (text : String)
  /-- A word after the end of the options. -/
  | trailing (text : String)
deriving DecidableEq

/-- The letters that are options without a value. -/
def flagLetters : List Char := ['v', 'h', 'V']

/-- The letters that are options with a value. -/
def valueLetters : List Char := ['o']

/-- Cuts joined letters: any number of options without a value, then at most
    one with a value, which the rest of the letters is.  Letters that do not
    fit are given up. -/
def joinedLetters : List Char → Option (List Item)
  | [] => some []
  | letter :: rest =>
    if flagLetters.contains letter then (joinedLetters rest).map (.short letter :: ·)
    else if valueLetters.contains letter then
      some (.short letter :: (if rest = [] then [] else [.attached (String.ofList rest)]))
    else none

/-- Cuts an argument that starts with one dash.  If an equals sign follows
    the first letter at any distance, all that follows the letter is its
    value, without the sign where that comes first; only a letter of one
    byte can have a value in this way, and what starts with a longer one is a
    word. -/
def shortItems (argument : String) (letters : List Char) : List Item :=
  match letters with
  | [] => [.word argument]
  | [letter] => [.short letter]
  | letter :: rest =>
    if rest.contains '=' then
      if letter.utf8Size = 1 then
        [.short letter, .attached (String.ofList
          (if rest.head? = some '=' then rest.tail else rest))]
      else [.word argument]
    else
      match joinedLetters letters with
      | some items => items
      | none => [.word argument]

/-- Cuts an argument that starts with two dashes. -/
def longItems (name : List Char) : List Item :=
  match name.dropWhile (· ≠ '=') with
  | [] => [.long (String.ofList name)]
  | _ :: value =>
    [.long (String.ofList (name.takeWhile (· ≠ '='))), .attached (String.ofList value)]

/-- Cuts an argument. -/
def itemsOf (argument : String) : List Item :=
  match argument.toList with
  | '-' :: '-' :: name => longItems name
  | '-' :: letters => shortItems argument letters
  | _ => [.word argument]

/-- Cuts arguments; after two dashes alone, every argument is a word. -/
def items : List String → List Item
  | [] => []
  | argument :: rest =>
    if argument = "--" then rest.map .trailing else itemsOf argument ++ items rest

/-- The items of a command line; an item that was taken leaves a gap. -/
abbrev Remaining := List (Option Item)

/-- How an option can be named. -/
structure OptionName where
  /-- The word. -/
  long : String
  /-- The letter, if there is one. -/
  short : Option Char := none

/-- Whether an item names an option. -/
def OptionName.names (name : OptionName) : Item → Bool
  | .short letter => name.short == some letter
  | .long word => name.long == word
  | _ => false

/-- Takes the first item that names an option without a value. -/
def takeFlag (name : OptionName) : Remaining → Bool × Remaining
  | [] => (false, [])
  | some item :: rest =>
    if name.names item then (true, none :: rest)
    else
      let (found, rest) := takeFlag name rest
      (found, some item :: rest)
  | none :: rest =>
    let (found, rest) := takeFlag name rest
    (found, none :: rest)

/-- Why a command line was not carried out. -/
inductive Refusal
  /-- It is invalid. -/
  | usage
  /-- It asks for help or the version. -/
  | help
deriving DecidableEq

/-- Takes the first item that names an option with a value, and the item
    directly after it, which must be its value. -/
def takeValue (name : OptionName) : Remaining → Except Refusal (Option String × Remaining)
  | [] => .ok (none, [])
  | some item :: rest =>
    if name.names item then
      match rest with
      | some (.word value) :: rest | some (.attached value) :: rest =>
        .ok (some value, none :: none :: rest)
      | _ => .error .usage
    else do
      let (value, rest) ← takeValue name rest
      return (value, some item :: rest)
  | none :: rest => do
    let (value, rest) ← takeValue name rest
    return (value, none :: rest)

/-- The words left over, if nothing else is. -/
def inputsOf (remaining : Remaining) : Except Refusal (List String) :=
  remaining.reduceOption.mapM fun item =>
    match item with
    | .word text | .trailing text => .ok text
    | _ => .error .usage

/-- What a command line asks for. -/
structure Invocation where
  /-- How to compile. -/
  options : CompileOptions
  /-- Whether to stop before emission. -/
  emitBodies : Bool
  /-- The file to write. -/
  output : Option String
  /-- Whether to report progress. -/
  verbose : Bool
  /-- The files to read. -/
  inputs : List String

/-- Whether some item asks for help or the version. -/
def asksForHelp (items : List Item) : Bool :=
  items.any fun item =>
    (OptionName.mk "help" (some 'h')).names item || (OptionName.mk "version" (some 'V')).names item

/-- Takes every option from the items. -/
def takeOptions (withEmitIr : Bool) (items : List Item) : Except Refusal Invocation := do
  let remaining : Remaining := items.map some
  let (noCopies, remaining) := takeFlag ⟨"no-copy-prop", none⟩ remaining
  let (noTerms, remaining) := takeFlag ⟨"no-cse", none⟩ remaining
  let (noDead, remaining) := takeFlag ⟨"no-dce", none⟩ remaining
  let (noAllocation, remaining) := takeFlag ⟨"no-regalloc", none⟩ remaining
  let (list, remaining) ← takeValue ⟨"palette", none⟩ remaining
  let palette ← match list.mapM parsePalette with
    | .ok palette => pure (palette.getD Register.defaultPalette)
    | .error _ => throw .usage
  let (emitBodies, remaining) :=
    if withEmitIr then takeFlag ⟨"emit-ir", none⟩ remaining else (false, remaining)
  let (output, remaining) ← takeValue ⟨"output", some 'o'⟩ remaining
  let (verbose, remaining) := takeFlag ⟨"verbose", some 'v'⟩ remaining
  let inputs ← inputsOf remaining
  return {
    options := { optimize := ⟨!noCopies, !noTerms, !noDead⟩, allocate := !noAllocation, palette }
    emitBodies, output, verbose, inputs }

/-- The invocation that arguments mean.  A request for help comes before any
    mistake. -/
def parse (withEmitIr : Bool) (arguments : List String) : Except Refusal Invocation :=
  let items := items arguments
  if asksForHelp items then .error .help else takeOptions withEmitIr items

end DecafBackend.CommandLine
