import TypeSchema.Json.Fields
import TypeSchema.Json.Selection
import TypeSchema.Schema.Basic

namespace TypeSchema

open Json (once? optional? orElse? required?)

def OneOrMany.ofJson? : Json → Option OneOrMany
  | .string text => some (.one text)
  | .array items => (items.mapM Json.asString?).map .many
  | _ => none

namespace Annotations

def ofFields? (fields : List (String × Json)) : Option Annotations := do
  let title ← optional? Json.asString? "title" fields
  let description ← optional? Json.asString? "description" fields
  let examples ← optional? OneOrMany.ofJson? "examples" fields
  let defaultValue ← optional? some "default" fields
  let see ← optional? OneOrMany.ofJson? "see" fields
  some { title, description, examples, defaultValue := defaultValue.map Json.distinct, see }

/-- The fields in the order in which a list gives their values. -/
def fieldNames : List String := ["title", "description", "examples", "default", "see"]

/-- Annotations as an object, or as the list of their first values. -/
def ofJson? : Json → Option Annotations
  | .object fields => ofFields? fields
  | .array items => if items.length ≤ 5 then ofFields? (fieldNames.zip items) else none
  | _ => none

end Annotations

/-- A span as an object with its two ends, or as the list of both. -/
def Span.ofJson? : Json → Option Span
  | .object fields => do
    let start ← required? Json.asNat? "start" fields
    let stop ← required? Json.asNat? "end" fields
    some ⟨start, stop⟩
  | .array [start, stop] => do some ⟨← start.asNat?, ← stop.asNat?⟩
  | _ => none

namespace Kind

/-- The tags in the order in which numbers stand for them. -/
def tags : List String :=
  ["any", "null", "string", "number", "integer", "boolean", "object", "array", "tuple", "or", "and",
    "ref"]

/-- A tag, given by name or by number. A number beyond the last is a tag without meaning. -/
def tagOfJson? : Json → Option String
  | .string tag => some tag
  | value => value.asNat?.map fun i => tags.getD i "unsupported"

end Kind

section

variable (node? : Json → Option Node)

/-- What else may be held: a flag or a node. -/
def Additional.ofJson? : Json → Option Additional
  | .bool flag => some (.allowed flag)
  | value => (node? value).map .node

/-- A property as an object, or as the list of its two fields. -/
def Property.ofJson? : Json → Option Property
  | .object fields => do
    let node ← required? node? "node" fields
    let required ← required? Json.asBool? "required" fields
    some ⟨node, required⟩
  | .array [node, required] => do some ⟨← node? node, ← required.asBool?⟩
  | _ => none

/-- Properties by name; of one name the last counts, in the first place. -/
def propertiesOfJson? : Json → Option (List (String × Property))
  | .object fields => do
    let properties ← fields.mapM fun (name, value) =>
      (Property.ofJson? node? value).map fun property => (name, property)
    some (Entries.distinct properties)
  | _ => none

def nodesOfJson? : Json → Option (List Node)
  | .array items => items.mapM node?
  | _ => none

/-- The kind that a tag names, with the fields that belong to it. -/
def Kind.ofFields? (tag : String) (fields : List (String × Json)) : Option Kind :=
  match tag with
  | "any" => some .any
  | "null" => some .null
  | "string" => some .string
  | "number" => some .number
  | "integer" => some .integer
  | "boolean" => some .boolean
  | "object" => do
    let properties ← orElse? (propertiesOfJson? node?) [] "properties" fields
    let additional ← orElse? (Additional.ofJson? node?) (.allowed false) "additionalProperties" fields
    some (.object properties additional)
  | "array" => do some (.array (← required? node? "elementType" fields))
  | "tuple" => do
    let elements ← orElse? (nodesOfJson? node?) [] "elementTypes" fields
    let additional ← orElse? (Additional.ofJson? node?) (.allowed false) "additionalItems" fields
    let minItems ← orElse? Json.asNat? 0 "minItems" fields
    some (.tuple elements additional minItems)
  | "or" => do some (.or (← required? (nodesOfJson? node?) "or" fields))
  | "and" => do some (.and (← required? (nodesOfJson? node?) "and" fields))
  | "ref" => do some (.ref (← required? Json.asString? "ref" fields))
  | _ => some .unsupported

def Node.ofFields? (fields : List (String × Json)) : Option Node := do
  let tag ← required? Kind.tagOfJson? "type" fields
  let kind ← Kind.ofFields? node? tag fields
  let constant ← optional? some "const" fields
  let enumeration ← optional? Json.asArray? "enum" fields
  let annotations ← Annotations.ofFields? fields
  let loc ← optional? Span.ofJson? "loc" fields
  some {
    kind
    constant := constant.map Json.distinct
    enumeration := enumeration.map Json.distinctItems
    annotations
    loc }

end

/-- A node inside a value of the given depth. -/
def Node.ofJsonWithin? : Nat → Json → Option Node
  | depth + 1, .object fields => Node.ofFields? (Node.ofJsonWithin? depth) fields
  | _, _ => none

def Node.ofJson? (value : Json) : Option Node := Node.ofJsonWithin? value.depth value

def NamedType.ofJson? : Json → Option NamedType
  | .object fields => do
    let name ← required? Json.asString? "name" fields
    let node ← Node.ofJson? (.object fields)
    some ⟨name, node⟩
  | _ => none

namespace Document

/-- A version is a number of thirty-two bits. -/
def versionOfJson? (value : Json) : Option Nat :=
  value.asNat?.filter (· < Nat.pow 2 32)

def typesOfJson? : Json → Option (List NamedType)
  | .array items => items.mapM NamedType.ofJson?
  | _ => none

/-- A document as an object, or as the list of its two fields. -/
def ofJson? : Json → Option Document
  | .object fields => do
    let version ← required? versionOfJson? "version" fields
    let types ← required? typesOfJson? "types" fields
    some ⟨version, types⟩
  | .array [version, types] => do some ⟨← versionOfJson? version, ← typesOfJson? types⟩
  | _ => none

/-- The document that a JSON text holds. -/
def ofText? (text : String) : Option Document :=
  (Json.parseSelected? ["version", "types"] text).bind ofJson?

end Document

end TypeSchema
