import TypeSchema.Operator
import TypeSchema.Json.Basic
import TypeSchema.Text.Position

namespace TypeSchema

/-- Where something was found. -/
structure Place where
  loc : Option Span := none
  range : Option Range := none
  snippet : Option String := none
  /-- The declaration that was being converted. -/
  path : List String := []
deriving DecidableEq, Repr

/-- A construct that is understood but cannot be converted. -/
inductive Unsupported
  | kind (tag : String)
  | generic
  | type (name : String)
  | qualifiedName
  | literal
  | restNotLast
  | restNotArray
  | operatorArity (op : Operator) (found : Nat)
  | operatorOfUnknown (op : Operator) (name : String)
  | operatorOfKind (op : Operator) (tag : String)
  | operatorKeys (op : Operator)
deriving DecidableEq, Repr

/-- The two ways of going into another declaration. -/
inductive Expansion
  | inline
  | expand
deriving DecidableEq, Repr

/-- Input that cannot be converted under the given options at all. -/
inductive Malformed
  | version (version : Nat)
  | cyclic (expansion : Expansion) (name : String)
  | nonExported
deriving DecidableEq, Repr

inductive Error
  | unsupported (cause : Unsupported) (place : Place)
  | malformed (cause : Malformed) (place : Place)
  | unreadable (reason : String)
deriving DecidableEq, Repr

/-- Something left out that does not stop the conversion. -/
inductive Omission
  | unsupported (cause : Unsupported)
  | nonStringIndex
deriving DecidableEq, Repr

structure Warning where
  omission : Omission
  place : Place
deriving DecidableEq, Repr

namespace Place

/-- The place of a span in a source text. -/
def ofSpan (source : List Char) (span : Span) : Place where
  loc := span
  range := span.resolve source
  snippet := span.snippet? source

/-- The start, as far as it is known. -/
def suffix (place : Place) : String :=
  match place.range, place.loc with
  | some range, _ => " at " ++ toString range.start.line ++ ":" ++ toString range.start.column
  | none, some loc => " at offset " ++ toString loc.start
  | none, none => ""

def positionJson (p : Position) : Json :=
  .object [("offset", .nat p.offset), ("line", .nat p.line), ("column", .nat p.column)]

def rangeJson (range : Range) : Json :=
  .object [("start", positionJson range.start), ("end", positionJson range.stop)]

def toJson (place : Place) : Json :=
  .object (Json.field? "loc" (place.loc.map fun loc =>
      .object [("start", .nat loc.start), ("end", .nat loc.stop)]) ++
    Json.field? "range" (place.range.map rangeJson) ++
    Json.field? "snippet" (place.snippet.map .string) ++ [("path", .strings place.path)])

end Place

def Unsupported.message : Unsupported → String
  | kind tag => "Type " ++ tag ++ " not supported"
  | generic => "Generic types are not supported"
  | type name => "Unimplemented type (" ++ name ++ ")"
  | qualifiedName => "Qualified reference names not supported"
  | literal => "Literal type not understood"
  | restNotLast => "Rest elements are only supported at the end of a tuple"
  | restNotArray => "Rest elements must be array types"
  | operatorArity op found =>
    op.name ++ " takes " ++ toString op.arity ++ " type argument(s), found " ++ toString found
  | operatorOfUnknown op name => op.name ++ " of " ++ name ++ " cannot be evaluated"
  | operatorOfKind op tag => op.name ++ " of " ++ tag ++ " type not supported"
  | operatorKeys op => op.name ++ " keys must be string literals"

def Expansion.verb : Expansion → String
  | inline => "inline"
  | expand => "expand"

def Malformed.message : Malformed → String
  | version n => "core-types version " ++ toString n ++ " not supported"
  | cyclic expansion name =>
    "Cyclic type found when trying to " ++ expansion.verb ++ " type " ++ name
  | nonExported => "Found non-exported type when 'nonExported' is 'fail'"

def Omission.message : Omission → String
  | unsupported cause => cause.message
  | nonStringIndex => "Will not convert non-string index signature"

namespace Error

/-- What went wrong and where, without the kind of error. -/
def detail : Error → String
  | unsupported cause place => cause.message ++ place.suffix
  | malformed cause place => cause.message ++ place.suffix
  | unreadable reason => "parse error: " ++ reason

def message : Error → String
  | unsupported cause place => "unsupported: " ++ (unsupported cause place).detail
  | malformed cause place => "malformed input: " ++ (malformed cause place).detail
  | unreadable reason => (unreadable reason).detail

def place? : Error → Option Place
  | unsupported _ place | malformed _ place => some place
  | unreadable _ => none

end Error

end TypeSchema
