import DecafBackend.Arena
import DecafBackend.Json.Value
import DecafBackend.Key.Optional
import DecafBackend.KeySet
import DecafBackend.SlotMap
import DecafBackend.SymbolPool

/-! # Containers as JSON

    Keys are written as their indices.  A slot map is written with its empty
    slots and its count; a key set and a symbol pool are written as what they
    hold, in order. -/

namespace DecafBackend

variable {kind : KeyKind} {α : Type}

/-- A natural number as JSON. -/
def Json.nat (n : Nat) : Json := .int n

/-- A value that may be absent, as JSON. -/
def Json.ofOption (write : α → Json) : Option α → Json
  | some value => write value
  | none => .null

/-- A list as JSON. -/
def Json.ofList (write : α → Json) (items : List α) : Json := .array (items.map write)

/-- The field of a record that must be given. -/
def Json.field {β : Type} (read : Json → Option β) : Option Json → Option β
  | some value => read value
  | none => none

namespace Key

/-- A key as JSON. -/
def toJson (key : Key kind) : Json := .nat key.index

/-- Reads a key. -/
def ofJson? (json : Json) : Option (Key kind) := (json.nat? kind.bits).map Key.mk

end Key

namespace OptionalKey

/-- An optional key as JSON: the stored index. -/
def toJson (key : OptionalKey kind) : Json := key.raw.toJson

/-- Reads an optional key. -/
def ofJson? (json : Json) : Option (OptionalKey kind) := (Key.ofJson? json).map OptionalKey.mk

end OptionalKey

namespace Arena

/-- An arena as JSON. -/
def toJson (write : α → Json) (arena : Arena kind α) : Json :=
  .object [("slots", .ofList write arena.values)]

/-- Reads an arena. -/
def ofJson? (read : Json → Option α) (json : Json) : Option (Arena kind α) := do
  match ← json.record? ["slots"] with
  | [slots] => return ⟨(← Json.field (Json.list? read) slots).toArray⟩
  | _ => none

end Arena

namespace SlotMap

/-- A slot map as JSON. -/
def toJson (write : α → Json) (map : SlotMap kind α) : Json :=
  .object [("slots", .ofList (Json.ofOption write) map.slots.toList), ("len", .nat map.count)]

/-- Reads a slot map. -/
def ofJson? (read : Json → Option α) (json : Json) : Option (SlotMap kind α) := do
  match ← json.record? ["slots", "len"] with
  | [slots, count] =>
    return ⟨(← Json.field (Json.list? (Json.nullable? read)) slots).toArray,
      ← Json.field (Json.nat? 64) count⟩
  | _ => none

end SlotMap

namespace KeySet

/-- A key set as JSON. -/
def toJson (set : KeySet kind) : Json := .ofList Key.toJson set.keys

/-- Reads a key set, whose indices must fit their kind. -/
def ofJson? (json : Json) : Option (Checked (KeySet kind)) := do
  let indices ← Json.list? (Json.nat? 64) json
  return ofList <$> indices.mapM (Key.ofIndex kind)

end KeySet

namespace SymbolPool

/-- A symbol pool as JSON. -/
def toJson (pool : SymbolPool) : Json := .ofList Json.string pool.texts.toList

/-- Reads a symbol pool; repeated texts are one symbol. -/
def ofJson? (json : Json) : Option SymbolPool := ofList <$> Json.list? Json.string? json

end SymbolPool

end DecafBackend
