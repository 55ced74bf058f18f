import TypeSchema.Json.Fields
import TypeSchema.Syntax.Basic

namespace TypeSchema

open Json (field?)

/-- A span as the list of its two ends. -/
def Span.toPair (span : Span) : Json := .array [.nat span.start, .nat span.stop]

def Span.ofPair? : Json → Option Span
  | .array [start, stop] => do some ⟨← start.asNat?, ← stop.asNat?⟩
  | _ => none

/-- The fields that every piece of syntax may have. -/
def trailingFields (doc : Option String) (span : Option Span) : List (String × Json) :=
  field? "doc" (doc.map .string) ++ field? "span" (span.map Span.toPair)

def Literal.fields : Literal → List (String × Json)
  | .string value => [("literal", .string "string"), ("value", .string value)]
  | .number value => [("literal", .string "number"), ("value", .number value)]
  | .boolean value => [("literal", .string "boolean"), ("value", .bool value)]
  | .null => [("literal", .string "null")]
  | .other text => [("literal", .string "other"), ("value", .string text)]

def ElementMark.name : ElementMark → String
  | required => "required"
  | optional => "optional"
  | rest => "rest"

mutual

def TypeExpr.toJson : TypeExpr → Json
  | ⟨kind, doc, span⟩ => .object (kind.fields ++ trailingFields doc span)

def TypeKind.fields : TypeKind → List (String × Json)
  | .keyword k => [("kind", .string "keyword"), ("name", .string k.name)]
  | .literal l => ("kind", .string "literal") :: l.fields
  | .reference name qualified args =>
    [("kind", .string "reference"), ("name", .string name), ("qualified", .bool qualified),
      ("args", .array (typeItems args))]
  | .array element => [("kind", .string "array"), ("element", element.toJson)]
  | .tuple elements => [("kind", .string "tuple"), ("elements", .array (elementItems elements))]
  | .union members => [("kind", .string "union"), ("members", .array (typeItems members))]
  | .intersection members =>
    [("kind", .string "intersection"), ("members", .array (typeItems members))]
  | .object members => [("kind", .string "object"), ("members", .array (memberItems members))]
  | .parenthesized inner => [("kind", .string "parenthesized"), ("inner", inner.toJson)]
  | .unsupported form => [("kind", .string "unsupported"), ("grammar", .string form)]

def typeItems : List TypeExpr → List Json
  | [] => []
  | t :: rest => t.toJson :: typeItems rest

def elementItems : List TupleElement → List Json
  | [] => []
  | ⟨mark, t, label⟩ :: rest =>
    .object ([("element", .string mark.name), ("type", t.toJson)] ++
      field? "label" (label.map .string)) :: elementItems rest

def memberItems : List Member → List Json
  | [] => []
  | .property name optional t doc span :: rest =>
    .object ([("member", .string "property"), ("name", .string name), ("optional", .bool optional)] ++
      (match t with
        | some t => [("type", t.toJson)]
        | none => []) ++ trailingFields doc span) :: memberItems rest
  | .index param key value doc span :: rest =>
    .object ([("member", .string "index"), ("param", .string param), ("key", key.toJson),
      ("value", value.toJson)] ++ trailingFields doc span) :: memberItems rest
  | .other span :: rest =>
    .object (("member", .string "other") :: trailingFields none span) :: memberItems rest

end

def Interface.toJson (d : Interface) : Json :=
  .object ([("statement", .string "interface"), ("name", .string d.name),
    ("exported", .bool d.exported), ("declare", .bool d.declare),
    ("typeParams", .strings d.typeParams), ("heritage", .array (typeItems d.heritage)),
    ("members", .array (memberItems d.members))] ++ trailingFields d.doc d.span)

def Alias.toJson (d : Alias) : Json :=
  .object ([("statement", .string "alias"), ("name", .string d.name), ("exported", .bool d.exported),
    ("declare", .bool d.declare), ("typeParams", .strings d.typeParams), ("value", d.value.toJson)] ++
    trailingFields d.doc d.span)

mutual

def Statement.toJson : Statement → Json
  | .interface decl => decl.toJson
  | .typeAlias decl => decl.toJson
  | .namespaced path exported body span =>
    .object ([("statement", .string "namespace"), ("path", .strings path), ("exported", .bool exported),
      ("body", .array (statementItems body))] ++ trailingFields none span)

def statementItems : List Statement → List Json
  | [] => []
  | s :: rest => s.toJson :: statementItems rest

end

def SourceFile.toJson (file : SourceFile) : Json :=
  .object [("statements", .array (statementItems file.statements))]

section

variable (type? : Json → Option TypeExpr)

/-- A list of which the field may be missing. -/
def listField? {α : Type} (read : Json → Option α) (name : String) (value : Json) : Option (List α) :=
  match value.field name with
  | none | some .null => some []
  | some items => items.asArray?.bind fun items => items.mapM read

/-- A flag of which the field may be missing. -/
def flagField (name : String) (value : Json) : Bool := ((value.field name).bind Json.asBool?).getD false

def docOf (value : Json) : Option String := (value.field "doc").bind Json.asString?

def spanOf (value : Json) : Option Span := (value.field "span").bind Span.ofPair?

def stringField? (name : String) (value : Json) : Option String :=
  (value.field name).bind Json.asString?

def Literal.ofJson? (value : Json) : Option Literal := do
  match ← stringField? "literal" value with
  | "string" => some (.string (← stringField? "value" value))
  | "number" =>
    match value.field "value" with
    | some (.number n) => some (.number n)
    | _ => none
  | "boolean" => some (.boolean (← (value.field "value").bind Json.asBool?))
  | "null" => some .null
  | "other" => some (.other (← stringField? "value" value))
  | _ => none

def ElementMark.ofName? : String → Option ElementMark
  | "required" => some required
  | "optional" => some optional
  | "rest" => some rest
  | _ => none

def TupleElement.ofJson? (value : Json) : Option TupleElement := do
  let mark ← (stringField? "element" value).bind ElementMark.ofName?
  let type ← (value.field "type").bind type?
  some { mark, type, label := stringField? "label" value }

def Member.ofJson? (value : Json) : Option Member := do
  match ← stringField? "member" value with
  | "property" =>
    let type ← match value.field "type" with
      | none | some .null => some none
      | some t => (type? t).map some
    some (.property (← stringField? "name" value) (flagField "optional" value) type (docOf value)
      (spanOf value))
  | "index" =>
    let key ← (value.field "key").bind type?
    let inner ← (value.field "value").bind type?
    some (.index (← stringField? "param" value) key inner (docOf value) (spanOf value))
  | "other" => some (.other (spanOf value))
  | _ => none

def TypeKind.ofJson? (value : Json) : Option TypeKind := do
  match ← stringField? "kind" value with
  | "keyword" => some (.keyword (← (stringField? "name" value).bind Keyword.ofName?))
  | "literal" => some (.literal (← Literal.ofJson? value))
  | "reference" =>
    some (.reference (← stringField? "name" value) (flagField "qualified" value)
      (← listField? type? "args" value))
  | "array" => some (.array (← (value.field "element").bind type?))
  | "tuple" => some (.tuple (← listField? (TupleElement.ofJson? type?) "elements" value))
  | "union" => some (.union (← listField? type? "members" value))
  | "intersection" => some (.intersection (← listField? type? "members" value))
  | "object" => some (.object (← listField? (Member.ofJson? type?) "members" value))
  | "parenthesized" => some (.parenthesized (← (value.field "inner").bind type?))
  | "unsupported" => some (.unsupported (← stringField? "grammar" value))
  | _ => none

end

/-- A type inside a value of the given depth. -/
def TypeExpr.ofJsonWithin? : Nat → Json → Option TypeExpr
  | 0, _ => none
  | depth + 1, value =>
    (TypeKind.ofJson? (ofJsonWithin? depth) value).map fun kind =>
      { kind, doc := docOf value, span := spanOf value }

def TypeExpr.ofJson? (value : Json) : Option TypeExpr := ofJsonWithin? value.depth value

/-- A statement inside a value of the given depth. -/
def Statement.ofJsonWithin? : Nat → Json → Option Statement
  | 0, _ => none
  | depth + 1, value => do
    match ← stringField? "statement" value with
    | "interface" =>
      some (.interface {
        name := ← stringField? "name" value
        exported := flagField "exported" value
        declare := flagField "declare" value
        typeParams := ← listField? Json.asString? "typeParams" value
        heritage := ← listField? TypeExpr.ofJson? "heritage" value
        members := ← listField? (Member.ofJson? TypeExpr.ofJson?) "members" value
        doc := docOf value
        span := spanOf value })
    | "alias" =>
      some (.typeAlias {
        name := ← stringField? "name" value
        exported := flagField "exported" value
        declare := flagField "declare" value
        typeParams := ← listField? Json.asString? "typeParams" value
        value := ← (value.field "value").bind TypeExpr.ofJson?
        doc := docOf value
        span := spanOf value })
    | "namespace" =>
      some (.namespaced (← listField? Json.asString? "path" value) (flagField "exported" value)
        (← listField? (ofJsonWithin? depth) "body" value) (spanOf value))
    | _ => none

def Statement.ofJson? (value : Json) : Option Statement := ofJsonWithin? value.depth value

def SourceFile.ofJson? (value : Json) : Option SourceFile :=
  (listField? Statement.ofJson? "statements" value).map SourceFile.mk

end TypeSchema
