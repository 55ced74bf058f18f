import TypeSchema.Encode
import TypeSchema.Schema.Equality

namespace TypeSchema

mutual

/-- The type of a constant. -/
def Json.normal : Json → Node
  | .null => .of .null
  | .bool b => { kind := .boolean, constant := some (.bool b) }
  | .number n => { kind := .number, constant := some (.number n) }
  | .string s => { kind := .string, constant := some (.string s) }
  | .array items => .of (.tuple (normalItems items) (.allowed false) items.length)
  | .object fields => .of (.object (normalFields fields) (.allowed false))

def normalItems : List Json → List Node
  | [] => []
  | item :: rest => item.normal :: normalItems rest

def normalFields : List (String × Json) → List (String × Property)
  | [] => []
  | (name, value) :: rest => (name, ⟨value.normal, true⟩) :: normalFields rest

end

/-- A node with other annotations. -/
def Node.annotated (node : Node) (annotations : Annotations) : Node := { node with annotations }

mutual

/-- The normal form of a node, without its annotations. -/
def Node.normal : Node → Node
  | ⟨.and all, _, _, _, _⟩ => .of (.and (normalMembers all))
  | ⟨.or all, _, _, _, _⟩ => .of (.or (normalMembers all))
  | ⟨.null, _, _, _, _⟩ => .of .null
  | ⟨_, some value, _, _, _⟩ => value.normal
  | ⟨_, none, some values, _, _⟩ => .of (.or (normalItems values))
  | ⟨.string, none, none, _, _⟩ => .of .string
  | ⟨.number, none, none, _, _⟩ => .of .number
  | ⟨.integer, none, none, _, _⟩ => .of .number
  | ⟨.boolean, none, none, _, _⟩ => .of .boolean
  | ⟨.any, none, none, _, _⟩ => .of .any
  | ⟨.ref name, none, none, _, _⟩ => .of (.ref name)
  | ⟨.object properties additional, none, none, _, _⟩ =>
    .of (.object (normalProperties properties) additional.normal)
  | ⟨.array element, none, none, _, _⟩ => .of (.array element.normal)
  | ⟨.tuple elements additional _, none, none, _, _⟩ =>
    .of (.tuple (normalElements elements) additional.normal elements.length)
  | ⟨.unsupported, none, none, _, _⟩ => .of .unsupported

/-- Members of a union or an intersection keep their annotations. -/
def normalMembers : List Node → List Node
  | [] => []
  | node :: rest => node.normal.annotated node.annotations :: normalMembers rest

def normalElements : List Node → List Node
  | [] => []
  | node :: rest => node.normal :: normalElements rest

/-- Properties keep their annotations. -/
def normalProperties : List (String × Property) → List (String × Property)
  | [] => []
  | (name, ⟨node, required⟩) :: rest =>
    (name, ⟨node.normal.annotated node.annotations, required⟩) :: normalProperties rest

def Additional.normal : Additional → Additional
  | .allowed flag => .allowed flag
  | .node node => .node node.normal

end

/-- The own members of a record, as an object. -/
def ownNormal : Option Node → Node
  | some ⟨.object properties additional, _, _, _, _⟩ =>
    .of (.object (normalProperties properties) additional.normal)
  | _ => .of (.object [] (.allowed false))

/-- The normal form of a record: the names that it extends, then its own members. -/
def Heritage.normal (h : Heritage) : Node :=
  let own := ownNormal h.object
  let parents := h.parents.map fun name => Node.of (.ref name)
  if parents.isEmpty then own else .of (.and (parents ++ [own]))

/-- The normal form of a type among the types of its document, with its annotations. -/
def NamedType.normal (roots : List NamedType) (named : NamedType) : NamedType where
  name := named.name
  node :=
    let node := match record? roots named.node with
      | some h => h.normal
      | none => named.node.normal
    node.annotated named.node.annotations

def Document.normal (d : Document) : Document where
  version := d.version
  types := d.types.map (NamedType.normal d.types)

end TypeSchema
