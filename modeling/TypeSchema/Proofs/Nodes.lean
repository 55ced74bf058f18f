import TypeSchema.Schema.Basic

namespace TypeSchema

mutual

/-- A node and the nodes below it, each before its own. -/
def Node.nodes : Node → List Node
  | ⟨kind, constant, enumeration, annotations, loc⟩ =>
    ⟨kind, constant, enumeration, annotations, loc⟩ :: kind.nodes

/-- The nodes below a node of this kind. -/
def Kind.nodes : Kind → List Node
  | .or members => nodesOf members
  | .and members => nodesOf members
  | .array element => element.nodes
  | .tuple elements additional _ => nodesOf elements ++ additional.nodes
  | .object properties additional => nodesOfProperties properties ++ additional.nodes
  | _ => []

def Additional.nodes : Additional → List Node
  | .allowed _ => []
  | .node node => node.nodes

def nodesOf : List Node → List Node
  | [] => []
  | node :: rest => node.nodes ++ nodesOf rest

def nodesOfProperties : List (String × Property) → List Node
  | [] => []
  | (_, ⟨node, _⟩) :: rest => node.nodes ++ nodesOfProperties rest

end

/-- The name that a reference names. -/
def Kind.ref? : Kind → Option String
  | .ref name => some name
  | _ => none

/-- The names of all references in a tree, in order. -/
def Node.refs (node : Node) : List String := node.nodes.filterMap fun n => n.kind.ref?

theorem Node.mem_refs {node : Node} {name : String} :
    name ∈ node.refs ↔ ∃ n ∈ node.nodes, n.kind = .ref name := by
  simp only [Node.refs, List.mem_filterMap]
  constructor
  · rintro ⟨n, hn, hk⟩
    refine ⟨n, hn, ?_⟩
    cases h : n.kind <;> simp_all [Kind.ref?]
  · rintro ⟨n, hn, hk⟩
    exact ⟨n, hn, by rw [hk]; rfl⟩

theorem Node.nodes_eq (node : Node) : node.nodes = node :: node.kind.nodes := by
  cases node
  rw [Node.nodes]

theorem Node.self_mem_nodes (node : Node) : node ∈ node.nodes := by
  rw [node.nodes_eq]
  exact List.mem_cons_self

theorem mem_nodesOf {n : Node} {nodes : List Node} :
    n ∈ nodesOf nodes ↔ ∃ m ∈ nodes, n ∈ m.nodes := by
  induction nodes with
  | nil => simp [nodesOf]
  | cons m rest ih => simp [nodesOf, ih]

theorem mem_nodesOfProperties {n : Node} {properties : List (String × Property)} :
    n ∈ nodesOfProperties properties ↔ ∃ p ∈ properties, n ∈ p.2.node.nodes := by
  induction properties with
  | nil => simp [nodesOfProperties]
  | cons p rest ih =>
    obtain ⟨name, node, required⟩ := p
    simp [nodesOfProperties, ih]

def refsOf (nodes : List Node) : List String := (nodesOf nodes).filterMap fun n => n.kind.ref?

def refsOfProperties (properties : List (String × Property)) : List String :=
  (nodesOfProperties properties).filterMap fun n => n.kind.ref?

def Additional.refs (additional : Additional) : List String :=
  additional.nodes.filterMap fun n => n.kind.ref?

/-- What a node refers to by itself, and what the nodes below it refer to. -/
theorem Node.refs_eq (node : Node) :
    node.refs = match node.kind with
      | .ref name => [name]
      | .or members | .and members => refsOf members
      | .array element => element.refs
      | .tuple elements additional _ => refsOf elements ++ additional.refs
      | .object properties additional => refsOfProperties properties ++ additional.refs
      | _ => [] := by
  rw [Node.refs, node.nodes_eq]
  cases hk : node.kind <;>
    simp [Kind.nodes, Kind.ref?, hk, refsOf, refsOfProperties, Additional.refs, Node.refs]

/-- Annotations are no part of what a tree refers to. -/
@[simp] theorem Node.refs_layer (node : Node) (top : Annotations) :
    (node.layer top).refs = node.refs := by
  rw [Node.refs_eq, Node.refs_eq]
  rfl

@[simp] theorem refsOf_nil : refsOf [] = [] := by simp [refsOf, nodesOf]

@[simp] theorem refsOf_cons (node : Node) (rest : List Node) :
    refsOf (node :: rest) = node.refs ++ refsOf rest := by
  simp [refsOf, nodesOf, Node.refs]

theorem refsOf_append (nodes more : List Node) : refsOf (nodes ++ more) = refsOf nodes ++ refsOf more := by
  induction nodes with
  | nil => simp
  | cons node rest ih => simp [ih]

theorem mem_refsOf {r : String} {nodes : List Node} : r ∈ refsOf nodes ↔ ∃ n ∈ nodes, r ∈ n.refs := by
  induction nodes with
  | nil => simp
  | cons node rest ih => simp [ih]

@[simp] theorem refsOfProperties_nil : refsOfProperties [] = [] := by
  simp [refsOfProperties, nodesOfProperties]

@[simp] theorem refsOfProperties_cons (name : String) (node : Node) (required : Bool)
    (rest : List (String × Property)) :
    refsOfProperties ((name, ⟨node, required⟩) :: rest) = node.refs ++ refsOfProperties rest := by
  simp [refsOfProperties, nodesOfProperties, Node.refs]

@[simp] theorem Additional.refs_allowed (flag : Bool) : (Additional.allowed flag).refs = [] := by
  simp [Additional.refs, Additional.nodes]

@[simp] theorem Additional.refs_node (node : Node) : (Additional.node node).refs = node.refs := by
  simp [Additional.refs, Additional.nodes, Node.refs]

mutual

/-- The field names of every object inside a value are distinct. -/
def Json.Distinct : Json → Prop
  | .array items => Json.DistinctItems items
  | .object fields => (fields.map Prod.fst).Nodup ∧ Json.DistinctFields fields
  | _ => True

def Json.DistinctItems : List Json → Prop
  | [] => True
  | item :: rest => item.Distinct ∧ Json.DistinctItems rest

def Json.DistinctFields : List (String × Json) → Prop
  | [] => True
  | (_, value) :: rest => value.Distinct ∧ Json.DistinctFields rest

end

/-- The property names of a kind are distinct. -/
def Kind.Distinct : Kind → Prop
  | .object properties _ => (properties.map Prod.fst).Nodup
  | _ => True

/-- No object of a node, neither its own nor one of its constants, has a name twice. This is what it means that
properties and fields are maps. -/
structure Node.Distinct (node : Node) : Prop where
  kind : node.kind.Distinct
  constant : ∀ v ∈ node.constant, v.Distinct
  enumeration : ∀ vs ∈ node.enumeration, Json.DistinctItems vs

theorem Node.distinct_iff {node : Node} : node.Distinct ↔ node.kind.Distinct ∧
    (∀ v ∈ node.constant, v.Distinct) ∧ ∀ vs ∈ node.enumeration, Json.DistinctItems vs :=
  ⟨fun h => ⟨h.kind, h.constant, h.enumeration⟩, fun ⟨hk, hc, he⟩ => ⟨hk, hc, he⟩⟩

end TypeSchema
