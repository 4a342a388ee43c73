import DecafBackend.Key

/-! # Symbols

    Names and literals are interned: equal texts are one symbol, and symbols
    are numbered in the order in which their texts first appear. -/

namespace DecafBackend

/-- The kind of interned texts. -/
abbrev KeyKind.symbol : KeyKind := ⟨"Str", 32⟩

/-- An interned text. -/
abbrev Symbol := Key .symbol

/-- The texts interned so far, each at the index of its symbol. -/
structure SymbolPool where
  /-- The texts in order of first appearance. -/
  texts : Array String := #[]
deriving DecidableEq

namespace SymbolPool

/-- The symbol of a text, if the text is interned. -/
def find? (pool : SymbolPool) (text : String) : Option Symbol :=
  (pool.texts.findIdx? (· == text)).map fun index => ⟨index⟩

/-- The symbol of a text, which is added if it is new. -/
def intern (pool : SymbolPool) (text : String) : Symbol × SymbolPool :=
  match pool.find? text with
  | some symbol => (symbol, pool)
  | none => (⟨pool.texts.size⟩, ⟨pool.texts.push text⟩)

/-- The text of a symbol, if it has one. -/
def text? (pool : SymbolPool) (symbol : Symbol) : Option String := pool.texts[symbol.index]?

/-- The text that a symbol must have. -/
def text (pool : SymbolPool) (symbol : Symbol) : Checked String :=
  match pool.text? symbol with
  | some text => .ok text
  | none => .error .outOfBounds

/-- The pool that interns the texts of a list in order. -/
def ofList (texts : List String) : SymbolPool :=
  texts.foldl (fun pool text => (pool.intern text).2) {}

/-- The symbols with their texts, in order. -/
def entries (pool : SymbolPool) : List (Symbol × String) :=
  pool.texts.toList.zipIdx.map fun (text, index) => (⟨index⟩, text)

end SymbolPool

end DecafBackend
