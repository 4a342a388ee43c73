import DecafBackend.Json.Containers

/-! # JSON forms

    The values that have one obvious form in JSON: truth values, numbers,
    texts and keys as themselves, lists and tuples as arrays, and an absent
    value as `null`. -/

namespace DecafBackend

/-- Values with a form in JSON. -/
class JsonForm (α : Type) where
  /-- The form of a value. -/
  json : α → Json

export JsonForm (json)

instance : JsonForm Json := ⟨id⟩

instance : JsonForm Unit := ⟨fun _ => .null⟩

instance : JsonForm Bool := ⟨.bool⟩

instance : JsonForm Nat := ⟨.nat⟩

instance : JsonForm Int := ⟨.int⟩

instance : JsonForm Int64 := ⟨fun value => .int value.toInt⟩

instance : JsonForm String := ⟨.string⟩

instance {kind : KeyKind} : JsonForm (Key kind) := ⟨Key.toJson⟩

instance {α : Type} [JsonForm α] : JsonForm (Option α) := ⟨.ofOption json⟩

instance {α : Type} [JsonForm α] : JsonForm (List α) := ⟨.ofList json⟩

instance {α β : Type} [JsonForm α] [JsonForm β] : JsonForm (α × β) :=
  ⟨fun (a, b) => .array [json a, json b]⟩

instance (priority := high) {α β γ : Type} [JsonForm α] [JsonForm β] [JsonForm γ] :
    JsonForm (α × β × γ) :=
  ⟨fun (a, b, c) => .array [json a, json b, json c]⟩

end DecafBackend
