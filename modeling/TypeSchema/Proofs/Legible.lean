import TypeSchema.Encode
import TypeSchema.Proofs.PrintedComments
import TypeSchema.Syntax.TypeReader

namespace TypeSchema

/-- The keywords of the language and the types that it predefines. -/
def reservedWords : List String :=
  ["break", "case", "catch", "class", "const", "continue", "debugger", "default", "delete", "do", "else", "enum",
    "export", "extends", "false", "finally", "for", "function", "if", "import", "in", "instanceof", "new", "null",
    "return", "super", "switch", "this", "throw", "true", "try", "typeof", "var", "void", "while", "with",
    "implements", "interface", "let", "package", "private", "protected", "public", "static", "yield",
    "infer", "keyof", "readonly", "unique", "any", "bigint", "boolean", "never", "number", "object", "string",
    "symbol", "undefined", "unknown"]

/-- A name that a type may have. -/
def isTypeName (name : String) : Bool := isPlainWord name && !reservedWords.contains name

def TypeKind.isIntersection : TypeKind → Bool
  | .intersection _ => true
  | _ => false

/-- The comment at the very start of an intersection. -/
def TypeKind.leadingDoc : TypeKind → Option String
  | .intersection (first :: _) => first.doc
  | _ => none

/-- Literals that are read as they are printed. -/
def Literal.Legible : Literal → Prop
  | .number (.integer n) => n.natAbs < Nat.pow 2 63
  | .number (.float _) | .other _ => False
  | .string _ | .boolean _ | .null => True

/-- A comment before an intersection without parentheses would be read as the comment of its first part, and one
before that part of the first intersection as the comment of the intersection. -/
structure SaysWhere (members : List TypeExpr) : Prop where
  intersections : ∀ m ∈ members, m.kind.isIntersection → m.doc = none
  first : ∀ m ∈ members.head?, m.kind.leadingDoc = none

mutual

/-- Types that are read as they are printed. -/
def TypeKind.Legible : TypeKind → Prop
  | .keyword k => k ∈ TypeReader.predefined
  | .literal l => l.Legible
  | .reference name qualified args => isTypeName name ∧ qualified = false ∧ args = []
  | .array ⟨kind, doc, _⟩ => doc = none ∧ kind.Legible
  | .tuple elements => LegibleElements elements
  | .union members => 2 ≤ members.length ∧ SaysWhere members ∧ LegibleOperands members
  | .intersection members => 2 ≤ members.length ∧ LegibleOperands members
  | .object members => LegibleMembers members
  | .parenthesized _ | .unsupported _ => False

def LegibleOperands : List TypeExpr → Prop
  | [] => True
  | ⟨kind, doc, _⟩ :: rest => (∀ d ∈ doc, IsDoc d) ∧ kind.Legible ∧ LegibleOperands rest

def LegibleElements : List TupleElement → Prop
  | [] => True
  | ⟨mark, ⟨kind, doc, _⟩, label⟩ :: rest =>
    mark ≠ .optional ∧ label = none ∧ doc = none ∧ kind.Legible ∧ LegibleElements rest

def LegibleMembers : List Member → Prop
  | [] => True
  | .property _ _ (some ⟨kind, inner, _⟩) doc _ :: rest =>
    (∀ d ∈ doc, IsDoc d) ∧ inner = none ∧ kind.Legible ∧ LegibleMembers rest
  | .index param ⟨key, keyDoc, _⟩ ⟨value, valueDoc, _⟩ doc _ :: rest =>
    (∀ d ∈ doc, IsDoc d) ∧ isPlainWord param ∧ keyDoc = none ∧ key.Legible ∧ valueDoc = none ∧ value.Legible ∧
      LegibleMembers rest
  | .property _ _ none _ _ :: _ | .other _ :: _ => False

end

/-- Interfaces and aliases that are read as they are printed. -/
def Statement.Legible : Statement → Prop
  | .interface d =>
    isTypeName d.name ∧ d.exported ∧ d.typeParams = [] ∧ (∀ doc ∈ d.doc, IsDoc doc) ∧
      (∀ parent ∈ d.heritage, ∃ name, isTypeName name ∧ parent = .reference name) ∧ LegibleMembers d.members
  | .typeAlias d =>
    isTypeName d.name ∧ d.exported ∧ d.typeParams = [] ∧ (∀ doc ∈ d.doc, IsDoc doc) ∧ d.value.doc = none ∧
      d.value.kind.Legible
  | .namespaced _ _ _ _ => False

/-- A legible declaration inside namespaces with names. -/
structure Placed.Legible (p : Placed) : Prop where
  namespaces : ∀ n ∈ p.namespaces, isTypeName n
  statement : p.statement.Legible

end TypeSchema
