import TypeSchema.DocComment
import TypeSchema.Error
import TypeSchema.Options
import TypeSchema.Schema.Basic
import TypeSchema.Syntax.Basic

namespace TypeSchema

/-- The way a type is encoded: the word for `any`. -/
structure Wording where
  useUnknown : Bool := false

def Wording.any (wording : Wording) : TypeExpr :=
  .keyword (if wording.useUnknown then .unknown else .any)

/-- An element without mark or label. -/
def TupleElement.plain (type : TypeExpr) : TupleElement := { mark := .required, type }

/-- The step that a constant stands for when it is read back. -/
def Ancestor.ofConstant : Json → Ancestor
  | .array _ => .tuple none
  | .object _ => .object
  | _ => .other

/-- The step that a node stands for when what it is encoded to is read back. -/
def Ancestor.ofNode (node : Node) : Ancestor :=
  match node.kind, node.constant, node.enumeration with
  | .or _, _, _ => .union
  | .and _, _, _ => .other
  | .null, _, _ => .other
  | _, some value, _ => .ofConstant value
  | _, none, some _ => .union
  | .object _ _, none, none => .object
  | .array _, none, none => .array
  | .tuple _ _ _, none, none => .tuple none
  | _, none, none => .other

mutual

/-- The literal type of a constant. -/
def constantType : Json → TypeExpr
  | .null => .literal .null
  | .bool b => .literal (.boolean b)
  | .number n => .literal (.number n)
  | .string s => .literal (.string s)
  | .array items => .of (.tuple (constantElements items))
  | .object fields => .of (.object (constantMembers fields))

def constantElements : List Json → List TupleElement
  | [] => []
  | item :: rest => .plain (constantType item) :: constantElements rest

def constantMembers : List (String × Json) → List Member
  | [] => []
  | (name, value) :: rest =>
    .property name false (some (constantType value)) none none :: constantMembers rest

end

/-- The member types of an enumeration. -/
def constantTypes (values : List Json) : List TypeExpr := values.map constantType

/-- The annotations of a node as a comment. -/
def commentOf (annotations : Annotations) (inferred : Option String) : Option String :=
  DocComment.render annotations inferred

def indexMember (value : TypeExpr) : Member :=
  .index "key" (.keyword .string) value none none

namespace Encode

variable (w : Wording)

mutual

/-- The type of a node. The path leads to the node and starts with its own step. -/
def type (path : Path) : Node → Except Error TypeExpr
  | ⟨.and all, _, _, _, _⟩ => do return .of (.intersection (← members path all))
  | ⟨.or all, _, _, _, _⟩ => do return .of (.union (← members path all))
  | ⟨.null, _, _, _, _⟩ => .ok (.literal .null)
  | ⟨_, some value, _, _, _⟩ => .ok (constantType value)
  | ⟨_, none, some values, _, _⟩ => .ok (.of (.union (constantTypes values)))
  | ⟨.string, none, none, _, _⟩ => .ok (.keyword .string)
  | ⟨.number, none, none, _, _⟩ => .ok (.keyword .number)
  | ⟨.integer, none, none, _, _⟩ => .ok (.keyword .number)
  | ⟨.boolean, none, none, _, _⟩ => .ok (.keyword .boolean)
  | ⟨.any, none, none, _, _⟩ => .ok w.any
  | ⟨.ref name, none, none, _, _⟩ => .ok (.reference name)
  | ⟨.object properties additional, none, none, _, _⟩ => do
    let named ← propertyMembers path properties
    return .of (.object (named ++ (← indexMembers path additional)))
  | ⟨.array element, none, none, _, _⟩ => do
    return .of (.array (← type (.ofNode element :: path) element))
  | ⟨.tuple items additional _, none, none, _, _⟩ => do
    let items' ← elements path.tail 0 items
    return .of (.tuple (items' ++ (← restElements path.tail items.length additional)))
  | ⟨.unsupported, none, none, _, loc⟩ => .error (.unsupported (.kind "unsupported") { loc })

/-- The members of a union or an intersection, each with its comment. -/
def members (path : Path) : List Node → Except Error (List TypeExpr)
  | [] => .ok []
  | node :: rest => do
    let path' : Path := .ofNode node :: path
    let first ← type path' node
    return { first with doc := commentOf node.annotations path'.title? } :: (← members path rest)

/-- The elements of a tuple from the position `i` on. -/
def elements (outer : Path) (i : Nat) : List Node → Except Error (List TupleElement)
  | [] => .ok []
  | node :: rest => do
    let first ← type (.ofNode node :: .tuple (some i) :: outer) node
    return .plain first :: (← elements outer (i + 1) rest)

/-- The rest element of a tuple whose elements end before the position `i`. It is read back as an array
behind three dots. -/
def restElements (outer : Path) (i : Nat) : Additional → Except Error (List TupleElement)
  | .allowed false => .ok []
  | .allowed true => .ok [{ mark := .rest, type := .of (.array w.any) }]
  | .node node => do
    let item ← type (.ofNode node :: .array :: .rest :: .tuple (some i) :: outer) node
    return [{ mark := .rest, type := .of (.array item) }]

def propertyMembers (path : Path) : List (String × Property) → Except Error (List Member)
  | [] => .ok []
  | (name, ⟨node, required⟩) :: rest => do
    let path' : Path := .property name :: path
    let value ← type (.ofNode node :: path') node
    return .property name (!required) (some value) (commentOf node.annotations path'.title?) none ::
      (← propertyMembers path rest)

/-- The index signature of an object that may hold more than its properties. -/
def indexMembers (path : Path) : Additional → Except Error (List Member)
  | .allowed false => .ok []
  | .allowed true => .ok [indexMember w.any]
  | .node node => do return [indexMember (← type (.ofNode node :: .other :: path) node)]

end

/-- The members of an object; anything else has none. -/
def objectMembers (path : Path) : Node → Except Error (List Member)
  | ⟨.object properties additional, _, _, _, _⟩ => do
    let named ← propertyMembers w path properties
    return named ++ (← indexMembers w path additional)
  | _ => .ok []

end Encode

/-- An object with the types that it extends. -/
structure Heritage where
  object : Option Node := none
  parents : List String := []

/-- Is `name` the name of an object type? -/
def namesObject (roots : List NamedType) (name : String) : Bool :=
  roots.any fun t => t.name == name && t.node.kind.isObject

/-- The members of an intersection as an object that extends others: at most one object, and references to
object types beside it. -/
def heritage? (roots : List NamedType) : List Node → Option Heritage
  | [] => some {}
  | node :: rest => do
    let h ← heritage? roots rest
    match node.kind with
    | .object _ _ => if h.object.isSome then none else some { h with object := some node }
    | .ref name => if namesObject roots name then some { h with parents := name :: h.parents } else none
    | _ => none

/-- The record that a node at the top of a declaration is, if it is one. -/
def record? (roots : List NamedType) (node : Node) : Option Heritage :=
  match node.kind with
  | .and members => heritage? roots members
  | .object _ _ =>
    if node.constant.isNone && node.enumeration.isNone then some { object := some node } else none
  | _ => none

/-- A statement with the namespaces that it belongs in, outermost first. -/
structure Placed where
  namespaces : List String
  statement : Statement

/-- The declaration of a named type among the types of its document: an interface for a record, an alias for
anything else. -/
def NamedType.declaration (named : NamedType) (options : WriteOptions) (roots : List NamedType) :
    Except Error Placed := do
  let wording : Wording := { useUnknown := options.useUnknown }
  let (namespaces, name) := options.namespaces.apply named.name
  let doc := commentOf named.node.annotations (some named.name)
  let path : Path := [.declaration named.name]
  match record? roots named.node with
  | some record =>
    let members ← match record.object with
      | some object => Encode.objectMembers wording path object
      | none => .ok []
    return ⟨namespaces, .interface {
      name, exported := true, declare := options.declaration
      heritage := record.parents.map TypeExpr.reference
      members, doc }⟩
  | none =>
    let value ← Encode.type wording (.ofNode named.node :: path) named.node
    return ⟨namespaces, .typeAlias {
      name, exported := true, declare := options.declaration, value, doc }⟩

/-- The declaration of a type on its own. Nothing is known of the types it refers to, so it extends none. -/
def NamedType.soleDeclaration (named : NamedType) (options : WriteOptions) : Except Error Placed :=
  named.declaration options []

end TypeSchema
