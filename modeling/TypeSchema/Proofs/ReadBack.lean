import TypeSchema.DocComment
import TypeSchema.Encode
import TypeSchema.Decode
import TypeSchema.Proofs.Nodes

namespace TypeSchema

/-- A constant counts on every node but unions, intersections and `null`. -/
def Kind.takesConstant : Kind → Bool
  | .or _ | .and _ | .null => false
  | _ => true

/-- A rest of `any` is a flag, and refers to nothing either way. -/
@[simp] theorem Additional.refs_ofRest (node : Node) : (ofRest (some node)).refs = node.refs := by
  rw [ofRest]
  split
  · next h =>
    rw [refs_allowed, Node.refs_eq]
    cases hk : node.kind <;> simp_all [Kind.isAny]
  · exact refs_node node

namespace ReadBack

/-- What is read at the end of a path, with the comment in front of it and the title of its place. -/
def under (doc : Option String) (path : Path) (node : Node) : Node :=
  node.layer (DocComment.read doc path)

mutual

/-- A constant, without the title of its place. -/
def constant (path : Path) : Json → Node
  | .null => .of .null
  | .bool b => { kind := .boolean, constant := some (.bool b) }
  | .number n => { kind := .number, constant := some (.number n) }
  | .string s => { kind := .string, constant := some (.string s) }
  | .array items => .of (.tuple (constants path.tail 0 items) (.allowed false) items.length)
  | .object fields => .of (.object (fieldProperties path fields) (.allowed false))

def constants (outer : Path) (i : Nat) : List Json → List Node
  | [] => []
  | value :: rest =>
    let path : Path := .ofConstant value :: .tuple (some i) :: outer
    under none path (constant path value) :: constants outer (i + 1) rest

def fieldProperties (path : Path) : List (String × Json) → List (String × Property)
  | [] => []
  | (name, value) :: rest =>
    let outer : Path := .property name :: path
    let path' : Path := .ofConstant value :: outer
    (name, ⟨under none outer (under none path' (constant path' value)), true⟩) ::
      fieldProperties path rest

end

/-- The members of an enumeration. -/
def variants (path : Path) (values : List Json) : List Node :=
  values.map fun value =>
    let path' : Path := .ofConstant value :: path
    under none path' (constant path' value)

variable (rename : String → String)

mutual

/-- A node, without its comment and the title of its place. -/
def content (path : Path) : Node → Node
  | ⟨.and all, _, _, _, _⟩ => .of (.and (members path all))
  | ⟨.or all, _, _, _, _⟩ => .of (.or (members path all))
  | ⟨.null, _, _, _, _⟩ => .of .null
  | ⟨_, some value, _, _, _⟩ => constant path value
  | ⟨_, none, some values, _, _⟩ => .of (.or (variants path values))
  | ⟨.string, none, none, _, _⟩ => .of .string
  | ⟨.number, none, none, _, _⟩ => .of .number
  | ⟨.integer, none, none, _, _⟩ => .of .number
  | ⟨.boolean, none, none, _, _⟩ => .of .boolean
  | ⟨.any, none, none, _, _⟩ => .of .any
  | ⟨.ref name, none, none, _, _⟩ => .of (.ref (rename name))
  | ⟨.object named more, none, none, _, _⟩ =>
    .of (.object (properties path named) (additional path more))
  | ⟨.array element, none, none, _, _⟩ =>
    let path' : Path := .ofNode element :: path
    .of (.array (under none path' (content path' element)))
  | ⟨.tuple items more _, none, none, _, _⟩ =>
    .of (.tuple (elements path.tail 0 items) (rest path.tail items.length more) items.length)
  | ⟨.unsupported, none, none, _, _⟩ => .of .unsupported

def members (path : Path) : List Node → List Node
  | [] => []
  | node :: others =>
    let path' : Path := .ofNode node :: path
    under (commentOf node.annotations path'.title?) path' (content path' node) :: members path others

def elements (outer : Path) (i : Nat) : List Node → List Node
  | [] => []
  | node :: others =>
    let path : Path := .ofNode node :: .tuple (some i) :: outer
    under none path (content path node) :: elements outer (i + 1) others

def rest (outer : Path) (i : Nat) : Additional → Additional
  | .allowed flag => .allowed flag
  | .node node =>
    let path : Path := .ofNode node :: .array :: .rest :: .tuple (some i) :: outer
    .ofRest (some (under none path (content path node)))

def properties (path : Path) : List (String × Property) → List (String × Property)
  | [] => []
  | (name, ⟨node, required⟩) :: others =>
    let outer : Path := .property name :: path
    let path' : Path := .ofNode node :: outer
    (name, ⟨under (commentOf node.annotations outer.title?) outer (under none path' (content path' node)),
      required⟩) :: properties path others

def additional (path : Path) : Additional → Additional
  | .allowed false => .allowed false
  | .allowed true => .node (under none (.other :: .other :: path) .any)
  | .node node =>
    let path' : Path := .ofNode node :: .other :: path
    .node (under none path' (content path' node))

end

/-- The own members of a record. -/
def shape (path : Path) : Option Node → Shape
  | some ⟨.object named more, _, _, _, _⟩ =>
    ⟨properties rename path named, additional rename path more⟩
  | _ => {}

/-- An object that extends others: their names, then its own members. -/
def record (path : Path) (h : Heritage) : Node :=
  let own := shape rename path h.object
  let parents := h.parents.map fun name => under none (.other :: .other :: path) (.of (.ref (rename name)))
  if parents.isEmpty then own.node else .of (.and (parents ++ [own.node]))

/-- A named type, with the comment of its declaration. -/
def declared (roots : List NamedType) (named : NamedType) : Node :=
  let path : Path := [.declaration named.name]
  under (commentOf named.node.annotations (some named.name)) path <|
    match record? roots named.node with
    | some h => record rename path h
    | none =>
      let path' : Path := .ofNode named.node :: path
      under none path' (content rename path' named.node)

variable {rename}

theorem content_constant {path : Path} {kind : Kind} (h : kind.takesConstant) (value : Json) (e a l) :
    content rename path ⟨kind, some value, e, a, l⟩ = constant path value := by
  cases kind <;> simp_all [Kind.takesConstant, content]

theorem content_enumeration {path : Path} {kind : Kind} (h : kind.takesConstant) (values : List Json) (a l) :
    content rename path ⟨kind, none, some values, a, l⟩ = .of (.or (variants path values)) := by
  cases kind <;> simp_all [Kind.takesConstant, content]

theorem ofNode_constant {kind : Kind} (h : kind.takesConstant) (value : Json) (e a l) :
    Ancestor.ofNode ⟨kind, some value, e, a, l⟩ = .ofConstant value := by
  cases kind <;> simp_all [Kind.takesConstant, Ancestor.ofNode]

theorem ofNode_enumeration {kind : Kind} (h : kind.takesConstant) (values : List Json) (a l) :
    Ancestor.ofNode ⟨kind, none, some values, a, l⟩ = .union := by
  cases kind <;> simp_all [Kind.takesConstant, Ancestor.ofNode]

end ReadBack

end TypeSchema
