import TypeSchema.Schema.Basic

namespace TypeSchema

mutual

/-- Equality of everything, with properties in any order. -/
def Node.same : Node → Node → Bool
  | ⟨kind, constant, enumeration, annotations, loc⟩, other =>
    kind.same other.kind && Json.sameOption constant other.constant &&
      Json.sameItemsOption enumeration other.enumeration && annotations.same other.annotations &&
      loc == other.loc

def Kind.same : Kind → Kind → Bool
  | .any, .any => true
  | .null, .null => true
  | .string, .string => true
  | .number, .number => true
  | .integer, .integer => true
  | .boolean, .boolean => true
  | .object ps a, .object qs b => ps.length == qs.length && sameProperties ps qs && a.same b
  | .array a, .array b => a.same b
  | .tuple as a m, .tuple bs b n => sameNodes as bs && a.same b && m == n
  | .or as, .or bs => sameNodes as bs
  | .and as, .and bs => sameNodes as bs
  | .ref a, .ref b => a == b
  | .unsupported, .unsupported => true
  | _, _ => false

def Additional.same : Additional → Additional → Bool
  | .allowed a, .allowed b => a == b
  | .node a, .node b => a.same b
  | _, _ => false

def sameNodes : List Node → List Node → Bool
  | [], [] => true
  | a :: as, b :: bs => a.same b && sameNodes as bs
  | _, _ => false

/-- Every property of the first list has an equal one in the second. -/
def sameProperties : List (String × Property) → Entries Property → Bool
  | [], _ => true
  | (name, ⟨node, required⟩) :: rest, others =>
    (match others.get? name with
      | some ⟨other, requiredThere⟩ => node.same other && required == requiredThere
      | none => false) && sameProperties rest others

end

mutual

/-- Equality of structure: everything but titles and locations, properties in their order. -/
def Node.structureEq : Node → Node → Bool
  | ⟨kind, constant, enumeration, annotations, _⟩, other =>
    kind.structureEq other.kind && Json.sameOption constant other.constant &&
      Json.sameItemsOption enumeration other.enumeration && annotations.sameBody other.annotations

def Kind.structureEq : Kind → Kind → Bool
  | .any, .any => true
  | .null, .null => true
  | .string, .string => true
  | .number, .number => true
  | .integer, .integer => true
  | .boolean, .boolean => true
  | .object ps a, .object qs b => structureEqProperties ps qs && a.structureEq b
  | .array a, .array b => a.structureEq b
  | .tuple as a m, .tuple bs b n => structureEqNodes as bs && a.structureEq b && m == n
  | .or as, .or bs => structureEqNodes as bs
  | .and as, .and bs => structureEqNodes as bs
  | .ref a, .ref b => a == b
  | .unsupported, .unsupported => true
  | _, _ => false

def Additional.structureEq : Additional → Additional → Bool
  | .allowed a, .allowed b => a == b
  | .node a, .node b => a.structureEq b
  | .allowed flag, .node n => flag && n.isPlainAny
  | .node n, .allowed flag => flag && n.isPlainAny

def structureEqNodes : List Node → List Node → Bool
  | [], [] => true
  | a :: as, b :: bs => a.structureEq b && structureEqNodes as bs
  | _, _ => false

/-- Equality of properties one by one, in their order. -/
def structureEqProperties : List (String × Property) → List (String × Property) → Bool
  | [], [] => true
  | (name, ⟨node, required⟩) :: rest, (other, ⟨otherNode, otherRequired⟩) :: others =>
    name == other && required == otherRequired && node.structureEq otherNode &&
      structureEqProperties rest others
  | _, _ => false

end

def NamedType.same (a b : NamedType) : Bool := a.name == b.name && a.node.same b.node

def NamedType.structureEq (a b : NamedType) : Bool := a.name == b.name && a.node.structureEq b.node

namespace Document

/-- Equality of everything, type by type. -/
def same (a b : Document) : Bool :=
  a.version == b.version && a.types.length == b.types.length &&
    (a.types.zip b.types).all fun (x, y) => x.same y

/-- Equality of structure, type by type. -/
def structureEq (a b : Document) : Bool :=
  a.version == b.version && a.types.length == b.types.length &&
    (a.types.zip b.types).all fun (x, y) => x.structureEq y

end Document

end TypeSchema
