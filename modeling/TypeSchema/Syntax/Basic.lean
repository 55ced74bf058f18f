import TypeSchema.Number.Basic
import TypeSchema.Text.Position

namespace TypeSchema

inductive Keyword
  | any
  | unknown
  | string
  | number
  | boolean
  | object
  | never
  | void
  | undefined
  | symbol
  | bigint
deriving DecidableEq, Repr

namespace Keyword

def name : Keyword → String
  | any => "any"
  | unknown => "unknown"
  | string => "string"
  | number => "number"
  | boolean => "boolean"
  | object => "object"
  | never => "never"
  | void => "void"
  | undefined => "undefined"
  | symbol => "symbol"
  | bigint => "bigint"

def all : List Keyword :=
  [any, unknown, string, number, boolean, object, never, void, undefined, symbol, bigint]

def ofName? (name : String) : Option Keyword := all.find? (·.name == name)

theorem ofName?_name (k : Keyword) : ofName? k.name = some k := by
  cases k <;> decide

end Keyword

inductive Literal
  | string (value : String)
  | number (value : Number)
  | boolean (value : Bool)
  | null
  /-- A literal that is kept as it was written. -/
  | other (text : String)
deriving DecidableEq

/-- How an element of a tuple is marked. -/
inductive ElementMark
  | required
  | optional
  | rest
deriving DecidableEq, Repr

mutual

inductive TypeKind
  | keyword (keyword : Keyword)
  | literal (literal : Literal)
  | reference (name : String) (qualified : Bool) (args : List TypeExpr)
  | array (element : TypeExpr)
  | tuple (elements : List TupleElement)
  | union (members : List TypeExpr)
  | intersection (members : List TypeExpr)
  | object (members : List Member)
  | parenthesized (inner : TypeExpr)
  /-- Any other type, known by the name of its form. -/
  | unsupported (form : String)

/-- A type with the comment in front of it. -/
structure TypeExpr where
  kind : TypeKind
  doc : Option String := none
  span : Option Span := none

structure TupleElement where
  mark : ElementMark
  /-- The type behind the mark; of a rest element, the whole array. -/
  type : TypeExpr
  label : Option String := none

/-- A member of an interface or an object type. -/
inductive Member
  | property (name : String) (optional : Bool) (type : Option TypeExpr) (doc : Option String)
      (span : Option Span)
  | index (param : String) (key value : TypeExpr) (doc : Option String) (span : Option Span)
  /-- Methods, accessors, call and construct signatures. -/
  | other (span : Option Span)

end

structure Interface where
  name : String
  exported : Bool := false
  declare : Bool := false
  typeParams : List String := []
  heritage : List TypeExpr := []
  members : List Member := []
  doc : Option String := none
  span : Option Span := none

structure Alias where
  name : String
  exported : Bool := false
  declare : Bool := false
  typeParams : List String := []
  value : TypeExpr
  doc : Option String := none
  span : Option Span := none

inductive Statement
  | interface (decl : Interface)
  | typeAlias (decl : Alias)
  | namespaced (path : List String) (exported : Bool) (body : List Statement) (span : Option Span)

structure SourceFile where
  statements : List Statement

namespace TypeExpr

def of (kind : TypeKind) : TypeExpr := { kind }

def keyword (k : Keyword) : TypeExpr := of (.keyword k)

def literal (l : Literal) : TypeExpr := of (.literal l)

/-- A plain reference by name. -/
def reference (name : String) : TypeExpr := of (.reference name false [])

end TypeExpr

def Member.isOther : Member → Bool
  | other _ => true
  | _ => false

end TypeSchema
