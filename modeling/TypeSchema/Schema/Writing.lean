import TypeSchema.Schema.Basic

namespace TypeSchema

def OneOrMany.toJson : OneOrMany → Json
  | .one text => .string text
  | .many texts => .strings texts

namespace Annotations

def fields (a : Annotations) : List (String × Json) :=
  Json.field? "title" (a.title.map .string) ++
  Json.field? "description" (a.description.map .string) ++
  Json.field? "examples" (a.examples.map OneOrMany.toJson) ++
  Json.field? "default" a.defaultValue ++
  Json.field? "see" (a.see.map OneOrMany.toJson)

def toJson (a : Annotations) : Json := .object a.fields

end Annotations

def Span.toJson (span : Span) : Json := .object [("start", .nat span.start), ("end", .nat span.stop)]

mutual

/-- The fields of a node: its kind, its constants, its annotations, its location. -/
def Node.fields : Node → List (String × Json)
  | ⟨kind, constant, enumeration, annotations, loc⟩ =>
    kind.fields ++ Json.field? "const" constant ++ Json.field? "enum" (enumeration.map .array) ++
      annotations.fields ++ Json.field? "loc" (loc.map Span.toJson)

/-- The tag and the fields that belong to it. -/
def Kind.fields : Kind → List (String × Json)
  | .any => [("type", .string "any")]
  | .null => [("type", .string "null")]
  | .string => [("type", .string "string")]
  | .number => [("type", .string "number")]
  | .integer => [("type", .string "integer")]
  | .boolean => [("type", .string "boolean")]
  | .object properties additional =>
    [("type", .string "object"), ("properties", .object (propertyFields properties)),
      ("additionalProperties", additional.toJson)]
  | .array element => [("type", .string "array"), ("elementType", .object element.fields)]
  | .tuple elements additional minItems =>
    [("type", .string "tuple"), ("elementTypes", .array (nodeItems elements)),
      ("additionalItems", additional.toJson), ("minItems", .nat minItems)]
  | .or members => [("type", .string "or"), ("or", .array (nodeItems members))]
  | .and members => [("type", .string "and"), ("and", .array (nodeItems members))]
  | .ref name => [("type", .string "ref"), ("ref", .string name)]
  | .unsupported => [("type", .string "unsupported")]

def Additional.toJson : Additional → Json
  | .allowed flag => .bool flag
  | .node node => .object node.fields

def nodeItems : List Node → List Json
  | [] => []
  | node :: rest => .object node.fields :: nodeItems rest

def propertyFields : List (String × Property) → List (String × Json)
  | [] => []
  | (name, ⟨node, required⟩) :: rest =>
    (name, .object [("node", .object node.fields), ("required", .bool required)]) :: propertyFields rest

end

def Node.toJson (node : Node) : Json := .object node.fields

def NamedType.toJson (named : NamedType) : Json :=
  .object (("name", .string named.name) :: named.node.fields)

def Document.toJson (document : Document) : Json :=
  .object [("version", .nat document.version), ("types", .array (document.types.map NamedType.toJson))]

end TypeSchema
