import TypeSchema.Json.Basic

namespace TypeSchema.Json

/-- The value of a field that is written once at most; nothing if it is written twice. -/
def once? (name : String) (fields : List (String × Json)) : Option (Option Json) :=
  match fields.filter (·.1 == name) with
  | [] => some none
  | [(_, value)] => some (some value)
  | _ => none

/-- A field that may be absent; `null` counts as absent. -/
def optional? {α : Type} (read : Json → Option α) (name : String) (fields : List (String × Json)) :
    Option (Option α) := do
  match ← once? name fields with
  | none => some none
  | some value => if value.isNull then some none else (read value).map some

/-- A field with a value of its own for when it is absent. -/
def orElse? {α : Type} (read : Json → Option α) (fallback : α) (name : String)
    (fields : List (String × Json)) : Option α := do
  match ← once? name fields with
  | none => some fallback
  | some value => read value

def required? {α : Type} (read : Json → Option α) (name : String) (fields : List (String × Json)) :
    Option α := do
  match ← once? name fields with
  | none => none
  | some value => read value

mutual

/-- How many containers stand inside one another, the value itself counted. -/
def depth : Json → Nat
  | array items => depthItems items + 1
  | object fields => depthFields fields + 1
  | _ => 1

def depthItems : List Json → Nat
  | [] => 0
  | item :: rest => max (depth item) (depthItems rest)

def depthFields : List (String × Json) → Nat
  | [] => 0
  | (_, value) :: rest => max (depth value) (depthFields rest)

end

end TypeSchema.Json
