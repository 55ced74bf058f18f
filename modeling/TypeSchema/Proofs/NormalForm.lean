import TypeSchema.Proofs.FileRecovery
import TypeSchema.Proofs.Normal
import TypeSchema.Proofs.ValueEquality

namespace TypeSchema

theorem Node.structureEq_iff {a b : Node} :
    a.structureEq b ↔ a.kind.structureEq b.kind ∧ Json.sameOption a.constant b.constant ∧
      Json.sameItemsOption a.enumeration b.enumeration ∧ a.annotations.sameBody b.annotations := by
  cases a
  simp [Node.structureEq, and_assoc]

theorem Json.eq_none_of_sameOption {a : Option Json} (h : sameOption a none) : a = none := by
  cases a with
  | none => rfl
  | some v => simp [sameOption] at h

/-- Annotations without a body leave the body of what is laid over them. -/
theorem Annotations.sameBody_layer {base top b : Annotations} (hb : base.sameBody {}) (ht : top.sameBody b) :
    (base.layer top).sameBody b := by
  simp only [sameBody, Bool.and_eq_true, beq_iff_eq] at hb ht ⊢
  obtain ⟨⟨⟨hd, he⟩, hv⟩, hs⟩ := hb
  have hv := Json.eq_none_of_sameOption hv
  simpa [layer, hd, he, hv, hs] using ht

theorem Annotations.sameBody_self_of_none {a : Annotations} (h : a.defaultValue = none) : a.sameBody a :=
  sameBody_self (by simp [h])

/-- Annotations that come back from their comment as they were, but for the title. -/
def Annotations.Recovers (a : Annotations) : Prop :=
  ∀ inferred path, (DocComment.read (commentOf a inferred) path).sameBody a

/-- The nodes directly inside a node that have comments of their own. -/
def Kind.commented : Kind → List Node
  | .or members | .and members => members
  | .object properties _ => properties.map fun p => p.2.node
  | _ => []

namespace ReadBack

/-- A node that is read under a comment keeps its structure and takes the body of the comment. -/
theorem structureEq_under {a b : Node} (h : a.structureEq b) (hb : b.annotations = {}) {doc : Option String}
    {path : Path} {annotations : Annotations} (hs : (DocComment.read doc path).sameBody annotations) :
    (under doc path a).structureEq (b.annotated annotations) := by
  rw [Node.structureEq_iff] at h ⊢
  obtain ⟨hk, hc, he, ha⟩ := h
  exact ⟨hk, hc, he, Annotations.sameBody_layer (hb ▸ ha) hs⟩

theorem structureEq_plain {a b : Node} (h : a.structureEq b) (hb : b.annotations = {}) (path : Path) :
    (under none path a).structureEq b := by
  have hs : (DocComment.read none path).sameBody {} := Annotations.sameBody_self_of_none rfl
  obtain ⟨kind, constant, enumeration, _, loc⟩ := b
  subst hb
  exact structureEq_under h rfl hs

theorem structureEq_of {a b : Kind} (h : a.structureEq b) : (Node.of a).structureEq (.of b) :=
  Node.structureEq_iff.mpr ⟨h, rfl, rfl, Annotations.sameBody_self_of_none rfl⟩

theorem annotations_normal_constant (v : Json) : v.normal.annotations = {} := by
  cases v <;> rfl

mutual

theorem constant_normal (path : Path) (value : Json) : (constant path value).structureEq value.normal := by
  match value with
  | .null => exact structureEq_of (by simp [Kind.structureEq])
  | .bool _ | .number _ | .string _ =>
    simp [constant, Json.normal, Node.structureEq_iff, Kind.structureEq, Json.sameOption, Json.same,
      Json.sameItemsOption, Number.same_self, Annotations.sameBody_self_of_none]
  | .array items =>
    have := constants_normal path.tail 0 items
    exact structureEq_of (by simp [Kind.structureEq, Additional.structureEq, this])
  | .object fields =>
    have := fields_normal path fields
    exact structureEq_of (by simp [Kind.structureEq, Additional.structureEq, this])

theorem constants_normal (outer : Path) (i : Nat) (items : List Json) :
    structureEqNodes (constants outer i items) (normalItems items) := by
  match items with
  | [] => simp [constants, normalItems, structureEqNodes]
  | value :: rest =>
    have hv := structureEq_plain (constant_normal (.ofConstant value :: .tuple (some i) :: outer) value)
      (annotations_normal_constant value) (.ofConstant value :: .tuple (some i) :: outer)
    have hr := constants_normal outer (i + 1) rest
    simp [constants, normalItems, structureEqNodes, hv, hr]

theorem fields_normal (path : Path) (fields : List (String × Json)) :
    structureEqProperties (fieldProperties path fields) (normalFields fields) := by
  match fields with
  | [] => simp [fieldProperties, normalFields, structureEqProperties]
  | (name, value) :: rest =>
    have hv := structureEq_plain (structureEq_plain
      (constant_normal (.ofConstant value :: .property name :: path) value) (annotations_normal_constant value)
      (.ofConstant value :: .property name :: path)) (annotations_normal_constant value) (.property name :: path)
    have hr := fields_normal path rest
    simp [fieldProperties, normalFields, structureEqProperties, hv, hr]

end

theorem annotations_normal (node : Node) : node.normal.annotations = {} := by
  unfold Node.normal
  split <;> first | rfl | exact annotations_normal_constant _

theorem isAny_normal_constant (value : Json) : value.normal.kind.isAny = false := by
  cases value <;> rfl

theorem normal_any {node : Node} (h : node.normal.kind.isAny) : node.normal.isPlainAny := by
  unfold Node.normal at h ⊢
  split at h
  case h_4 value _ _ _ _ _ _ => exact absurd h (by simp [isAny_normal_constant])
  all_goals first | rfl | simp [Node.of, Kind.isAny] at h

theorem ofRest_normal {read : Node} {node : Node} (h : read.structureEq node.normal) :
    (Additional.ofRest (some read)).structureEq (.node node.normal) := by
  cases hk : read.kind.isAny with
  | false => simpa [Additional.ofRest, hk, Additional.structureEq] using h
  | true =>
    have hb := (Node.structureEq_iff.mp h).1
    have ha : node.normal.kind.isAny := by
      generalize node.normal.kind = b at hb
      cases hr : read.kind <;> cases b <;> simp_all [Kind.isAny, Kind.structureEq]
    simpa [Additional.ofRest, hk, Additional.structureEq] using normal_any ha

theorem variants_normal (path : Path) (values : List Json) :
    structureEqNodes (variants path values) (normalItems values) := by
  induction values with
  | nil => simp [variants, normalItems, structureEqNodes]
  | cons value rest ih =>
    have hv := structureEq_plain (constant_normal (.ofConstant value :: path) value)
      (annotations_normal_constant value) (.ofConstant value :: path)
    simp only [variants] at ih
    simp [variants, normalItems, structureEqNodes, hv, ih]

mutual

theorem content_normal (path : Path) (node : Node)
    (h : ∀ n ∈ node.nodes, ∀ m ∈ n.kind.commented, m.annotations.Recovers) :
    (content id path node).structureEq node.normal := by
  rw [node.nodes_eq] at h
  have hself := h node List.mem_cons_self
  match node with
  | ⟨.and all, c, e, a, l⟩ =>
    have hm := members_normal path all hself (fun n hn => h n (List.mem_cons_of_mem _ hn))
    simp only [content, Node.normal]
    exact structureEq_of (by simpa [Kind.structureEq] using hm)
  | ⟨.or all, c, e, a, l⟩ =>
    have hm := members_normal path all hself (fun n hn => h n (List.mem_cons_of_mem _ hn))
    simp only [content, Node.normal]
    exact structureEq_of (by simpa [Kind.structureEq] using hm)
  | ⟨.null, c, e, a, l⟩ | ⟨.string, none, none, a, l⟩ | ⟨.number, none, none, a, l⟩ | ⟨.integer, none, none, a, l⟩
  | ⟨.boolean, none, none, a, l⟩ | ⟨.any, none, none, a, l⟩ | ⟨.unsupported, none, none, a, l⟩
  | ⟨.ref _, none, none, a, l⟩ =>
    simp only [content, Node.normal]
    exact structureEq_of (by simp [Kind.structureEq])
  | ⟨.object named more, none, none, a, l⟩ =>
    simp only [Kind.nodes, List.mem_cons, List.mem_append] at h
    have hp := properties_normal path named hself (fun n hn => h n (.inr (.inl hn)))
    have ha := additional_normal path more (fun n hn => h n (.inr (.inr hn)))
    simp only [content, Node.normal]
    exact structureEq_of (by simp [Kind.structureEq, hp, ha])
  | ⟨.array el, none, none, a, l⟩ =>
    have he := structureEq_plain (content_normal (.ofNode el :: path) el (fun n hn => h n (List.mem_cons_of_mem _ hn)))
      (annotations_normal el) (.ofNode el :: path)
    simp only [content, Node.normal]
    exact structureEq_of (by simpa [Kind.structureEq] using he)
  | ⟨.tuple items more _, none, none, a, l⟩ =>
    simp only [Kind.nodes, List.mem_cons, List.mem_append] at h
    have hi := elements_normal path.tail 0 items (fun n hn => h n (.inr (.inl hn)))
    have hm := rest_normal path.tail items.length more (fun n hn => h n (.inr (.inr hn)))
    simp only [content, Node.normal]
    exact structureEq_of (by simp [Kind.structureEq, hi, hm])
  | ⟨.object _ _, some v, e, a, l⟩ | ⟨.array _, some v, e, a, l⟩ | ⟨.tuple _ _ _, some v, e, a, l⟩
  | ⟨.ref _, some v, e, a, l⟩ | ⟨.string, some v, e, a, l⟩ | ⟨.number, some v, e, a, l⟩
  | ⟨.integer, some v, e, a, l⟩ | ⟨.boolean, some v, e, a, l⟩ | ⟨.any, some v, e, a, l⟩
  | ⟨.unsupported, some v, e, a, l⟩ =>
    simp only [content, Node.normal]
    exact constant_normal path v
  | ⟨.object _ _, none, some vs, a, l⟩ | ⟨.array _, none, some vs, a, l⟩ | ⟨.tuple _ _ _, none, some vs, a, l⟩
  | ⟨.ref _, none, some vs, a, l⟩ | ⟨.string, none, some vs, a, l⟩ | ⟨.number, none, some vs, a, l⟩
  | ⟨.integer, none, some vs, a, l⟩ | ⟨.boolean, none, some vs, a, l⟩ | ⟨.any, none, some vs, a, l⟩
  | ⟨.unsupported, none, some vs, a, l⟩ =>
    simp only [content, Node.normal]
    exact structureEq_of (by simpa [Kind.structureEq] using variants_normal path vs)

theorem members_normal (path : Path) (nodes : List Node) (hself : ∀ n ∈ nodes, n.annotations.Recovers)
    (h : ∀ n ∈ nodesOf nodes, ∀ m ∈ n.kind.commented, m.annotations.Recovers) :
    structureEqNodes (members id path nodes) (normalMembers nodes) := by
  match nodes with
  | [] => simp [members, normalMembers, structureEqNodes]
  | node :: rest =>
    simp only [nodesOf, List.mem_append] at h
    have hn := structureEq_under (content_normal (.ofNode node :: path) node (fun n hn => h n (.inl hn)))
      (annotations_normal node) (hself node List.mem_cons_self (Path.title? (.ofNode node :: path)) (.ofNode node :: path))
    have hr := members_normal path rest (fun n hn => hself n (List.mem_cons_of_mem _ hn)) (fun n hn => h n (.inr hn))
    simp [members, normalMembers, structureEqNodes, hn, hr]

theorem elements_normal (outer : Path) (i : Nat) (nodes : List Node)
    (h : ∀ n ∈ nodesOf nodes, ∀ m ∈ n.kind.commented, m.annotations.Recovers) :
    structureEqNodes (elements id outer i nodes) (normalElements nodes) := by
  match nodes with
  | [] => simp [elements, normalElements, structureEqNodes]
  | node :: others =>
    simp only [nodesOf, List.mem_append] at h
    have hn := structureEq_plain (content_normal (.ofNode node :: .tuple (some i) :: outer) node
      (fun n hn => h n (.inl hn))) (annotations_normal node) (.ofNode node :: .tuple (some i) :: outer)
    have hr := elements_normal outer (i + 1) others (fun n hn => h n (.inr hn))
    simp [elements, normalElements, structureEqNodes, hn, hr]

theorem rest_normal (outer : Path) (i : Nat) (more : Additional)
    (h : ∀ n ∈ more.nodes, ∀ m ∈ n.kind.commented, m.annotations.Recovers) :
    (rest id outer i more).structureEq more.normal := by
  match more with
  | .allowed flag => simp [rest, Additional.normal, Additional.structureEq]
  | .node node =>
    have hn := structureEq_plain (content_normal (.ofNode node :: .array :: .rest :: .tuple (some i) :: outer) node
      (by simpa [Additional.nodes] using h)) (annotations_normal node)
      (.ofNode node :: .array :: .rest :: .tuple (some i) :: outer)
    exact ofRest_normal hn

theorem properties_normal (path : Path) (named : List (String × Property))
    (hself : ∀ n ∈ named.map (fun p => p.2.node), n.annotations.Recovers)
    (h : ∀ n ∈ nodesOfProperties named, ∀ m ∈ n.kind.commented, m.annotations.Recovers) :
    structureEqProperties (properties id path named) (normalProperties named) := by
  match named with
  | [] => simp [properties, normalProperties, structureEqProperties]
  | (name, ⟨node, required⟩) :: others =>
    simp only [nodesOfProperties, List.mem_append] at h
    have hn := structureEq_under (structureEq_plain (content_normal (.ofNode node :: .property name :: path) node
      (fun n hn => h n (.inl hn))) (annotations_normal node) (.ofNode node :: .property name :: path))
      (annotations_normal node)
      (hself node List.mem_cons_self (Path.title? (.property name :: path)) (.property name :: path))
    have hr := properties_normal path others (fun n hn => hself n (List.mem_cons_of_mem _ hn))
      (fun n hn => h n (.inr hn))
    simp [properties, normalProperties, structureEqProperties, hn, hr]

theorem additional_normal (path : Path) (more : Additional)
    (h : ∀ n ∈ more.nodes, ∀ m ∈ n.kind.commented, m.annotations.Recovers) :
    (additional id path more).structureEq more.normal := by
  match more with
  | .allowed false => simp [additional, Additional.normal, Additional.structureEq]
  | .allowed true =>
    simp [additional, Additional.normal, Additional.structureEq]
    rfl
  | .node node =>
    have hn := structureEq_plain (content_normal (.ofNode node :: .other :: path) node
      (by simpa [Additional.nodes] using h)) (annotations_normal node) (.ofNode node :: .other :: path)
    simp [additional, Additional.normal, Additional.structureEq, hn]

end

/-- The own members of a record keep their structure; without an object there are none. -/
theorem shape_normal (path : Path) (object : Option Node)
    (h : ∀ o ∈ object, ∀ n ∈ o.nodes, ∀ m ∈ n.kind.commented, m.annotations.Recovers) :
    (shape id path object).node.structureEq (ownNormal object) := by
  have hnone : (Shape.node {}).structureEq (.of (.object [] (.allowed false))) :=
    structureEq_of (by simp [Kind.structureEq, structureEqProperties, Additional.structureEq])
  rcases object with _ | ⟨kind, c, e, a, l⟩
  · exact hnone
  · cases kind
    case object named more =>
      replace h := h _ rfl
      rw [Node.nodes_eq] at h
      have hself := h _ List.mem_cons_self
      simp only [Kind.nodes, List.mem_cons, List.mem_append] at h
      have hp := properties_normal path named hself (fun n hn => h n (.inr (.inl hn)))
      have ha := additional_normal path more (fun n hn => h n (.inr (.inr hn)))
      exact structureEq_of (by simp [Kind.structureEq, shape, hp, ha])
    all_goals exact hnone

theorem structureEqNodes_append {as bs cs ds : List Node} (h : structureEqNodes as bs) (h' : structureEqNodes cs ds) :
    structureEqNodes (as ++ cs) (bs ++ ds) := by
  induction as generalizing bs with
  | nil =>
    cases bs with
    | nil => exact h'
    | cons => simp [structureEqNodes] at h
  | cons a as ih =>
    cases bs with
    | nil => simp [structureEqNodes] at h
    | cons b bs =>
      simp only [structureEqNodes, Bool.and_eq_true, List.cons_append] at h ⊢
      exact ⟨h.1, ih h.2⟩

theorem parents_normal (path : Path) (parents : List String) :
    structureEqNodes (parents.map fun name => under none path (.of (.ref name)))
      (parents.map fun name => Node.of (.ref name)) := by
  induction parents with
  | nil => simp [structureEqNodes]
  | cons name rest ih =>
    have hn : (under none path (.of (.ref name))).structureEq (.of (.ref name)) :=
      structureEq_plain (structureEq_of (by simp [Kind.structureEq])) rfl path
    simp [structureEqNodes, hn, ih]

theorem record_normal (path : Path) (record : Heritage)
    (h : ∀ o ∈ record.object, ∀ n ∈ o.nodes, ∀ m ∈ n.kind.commented, m.annotations.Recovers) :
    (ReadBack.record id path record).structureEq record.normal := by
  have hown := shape_normal path record.object h
  simp only [ReadBack.record, Heritage.normal, id_eq]
  cases hp : record.parents with
  | nil => exact hown
  | cons name rest =>
    have hpar := parents_normal (.other :: .other :: path) (name :: rest)
    refine structureEq_of ?_
    simp only [Kind.structureEq]
    exact structureEqNodes_append hpar (by simp [structureEqNodes, hown])

theorem annotations_normal_record (record : Heritage) : record.normal.annotations = {} := by
  unfold Heritage.normal ownNormal
  cases record.parents with
  | nil => simp only [List.map_nil, List.isEmpty_nil, if_true]; split <;> rfl
  | cons name rest => rfl

/-- A type is read back as its normal form where references keep their names. -/
theorem declared_normal (roots : List NamedType) (t : NamedType) (ht : t.node.annotations.Recovers)
    (h : ∀ n ∈ t.node.nodes, ∀ m ∈ n.kind.commented, m.annotations.Recovers) :
    (declared id roots t).structureEq (t.normal roots).node := by
  have hs := ht (some t.name) [.declaration t.name]
  unfold declared NamedType.normal
  cases hrec : record? roots t.node with
  | some record =>
    have hr := record_normal [.declaration t.name] record
      fun o ho n hn => h n (((record_mem hrec).1 o ho).2 n hn)
    exact structureEq_under hr (annotations_normal_record record) hs
  | none =>
    have hc := structureEq_plain (content_normal [.ofNode t.node, .declaration t.name] t.node h)
      (annotations_normal t.node) [.ofNode t.node, .declaration t.name]
    exact structureEq_under hc (annotations_normal t.node) hs

end ReadBack

theorem NamespacePolicy.target_ignore (names scope : List String) : target .ignore names scope = id := rfl

/-- Where declarations are read without their namespaces, a document comes back as its normal form. -/
theorem Document.recovered_structureEq {d : Document} (hv : d.version = currentVersion) (split : NamespaceSplit)
    (ht : ∀ t ∈ d.types, t.node.annotations.Recovers)
    (h : ∀ t ∈ d.types, ∀ n ∈ t.node.nodes, ∀ m ∈ n.kind.commented, m.annotations.Recovers) :
    (d.recovered split .ignore).structureEq d.normal := by
  have htypes : ∀ t ∈ d.types, (ReadBack.declared id d.types t).structureEq (t.normal d.types).node :=
    fun t hm => ReadBack.declared_normal d.types t (ht t hm) (h t hm)
  simpa [structureEq, recovered, normal, hv, List.zip_map', NamedType.structureEq, NamedType.normal,
    NamespacePolicy.target_ignore] using htypes

end TypeSchema
