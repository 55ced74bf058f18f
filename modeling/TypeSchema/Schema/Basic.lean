import TypeSchema.Annotations
import TypeSchema.Text.Position

namespace TypeSchema

mutual

/-- What a node is. -/
inductive Kind
  | any
  | null
  | string
  | number
  | integer
  | boolean
  | object (properties : List (String × Property)) (additional : Additional)
  | array (element : Node)
  | tuple (elements : List Node) (additional : Additional) (minItems : Nat)
  | or (members : List Node)
  | and (members : List Node)
  | ref (name : String)
  /-- A kind that has no meaning here. -/
  | unsupported

/-- What an object or a tuple may hold beside what it lists. -/
inductive Additional
  | allowed (flag : Bool)
  | node (node : Node)

structure Property where
  node : Node
  required : Bool

structure Node where
  kind : Kind
  /-- The one value that is allowed. -/
  constant : Option Json := none
  /-- The values that are allowed. -/
  enumeration : Option (List Json) := none
  annotations : Annotations := {}
  loc : Option Span := none

end

structure NamedType where
  name : String
  node : Node

structure Document where
  version : Nat
  types : List NamedType

/-- The version that is read and written. -/
def Document.currentVersion : Nat := 1

namespace Kind

def tag : Kind → String
  | any => "any"
  | null => "null"
  | string => "string"
  | number => "number"
  | integer => "integer"
  | boolean => "boolean"
  | object _ _ => "object"
  | array _ => "array"
  | tuple _ _ _ => "tuple"
  | or _ => "or"
  | and _ => "and"
  | ref _ => "ref"
  | unsupported => "unsupported"

def isAny : Kind → Bool
  | any => true
  | _ => false

def isObject : Kind → Bool
  | object _ _ => true
  | _ => false

end Kind

def Additional.isAllowed : Additional → Bool
  | allowed flag => flag
  | node _ => true

namespace Node

def of (kind : Kind) : Node := { kind }

def any : Node := of .any

/-- A node with its annotations laid under the given ones. -/
def layer (node : Node) (top : Annotations) : Node :=
  { node with annotations := node.annotations.layer top }

/-- A bare `any`, with nothing but annotations. -/
def isPlainAny (node : Node) : Bool :=
  node.kind.isAny && node.constant.isNone && node.enumeration.isNone

end Node

mutual

/-- Does the tree hold a reference to `name`? -/
def Node.references (name : String) : Node → Bool
  | ⟨kind, _, _, _, _⟩ => kind.references name

def Kind.references (name : String) : Kind → Bool
  | .ref target => target == name
  | .or members => referencesAny name members
  | .and members => referencesAny name members
  | .array element => element.references name
  | .tuple elements additional _ => referencesAny name elements || additional.references name
  | .object properties additional =>
    referencesProperty name properties || additional.references name
  | _ => false

def Additional.references (name : String) : Additional → Bool
  | .allowed _ => false
  | .node node => node.references name

def referencesAny (name : String) : List Node → Bool
  | [] => false
  | node :: rest => node.references name || referencesAny name rest

def referencesProperty (name : String) : List (String × Property) → Bool
  | [] => false
  | (_, ⟨node, _⟩) :: rest => node.references name || referencesProperty name rest

end

end TypeSchema
