import TypeSchema.Emit
import TypeSchema.Proofs.Recovery

namespace TypeSchema

namespace Encode

variable (w : Wording)

mutual

theorem type_total (path : Path) (node : Node) (h : ∀ n ∈ node.nodes, n.kind ≠ .unsupported) :
    ∃ t, type w path node = .ok t := by
  have hself := h node node.self_mem_nodes
  rw [node.nodes_eq] at h
  obtain ⟨kind, constant, enumeration, annotations, loc⟩ := node
  cases hk : kind.takesConstant with
  | true =>
    match constant, enumeration with
    | some value, _ => exact ⟨_, ReadBack.encode_constant hk value _ _ _⟩
    | none, some values => exact ⟨_, ReadBack.encode_enumeration hk values _ _⟩
    | none, none =>
      match kind with
      | .object named more =>
        simp only [Kind.nodes, List.mem_cons, List.mem_append] at h
        obtain ⟨named', hn⟩ := propertyMembers_total path named fun n hn => h n (.inr (.inl hn))
        obtain ⟨more', hm⟩ := indexMembers_total path more fun n hn => h n (.inr (.inr hn))
        exact ⟨_, by simp only [type, hn, hm]; rfl⟩
      | .array element =>
        obtain ⟨item, hi⟩ := type_total (.ofNode element :: path) element fun n hn => h n (List.mem_cons_of_mem _ hn)
        exact ⟨_, by simp only [type, hi]; rfl⟩
      | .tuple items more _ =>
        simp only [Kind.nodes, List.mem_cons, List.mem_append] at h
        obtain ⟨items', hi⟩ := elements_total path.tail 0 items fun n hn => h n (.inr (.inl hn))
        obtain ⟨more', hm⟩ := restElements_total path.tail items.length more fun n hn => h n (.inr (.inr hn))
        exact ⟨_, by simp only [type, hi, hm]; rfl⟩
      | .string | .number | .integer | .boolean | .any | .ref _ => exact ⟨_, rfl⟩
      | .unsupported => exact absurd rfl hself
  | false =>
    match kind with
    | .or all | .and all =>
      obtain ⟨ts, ht⟩ := members_total path all fun n hn => h n (List.mem_cons_of_mem _ hn)
      exact ⟨_, by simp only [type, ht]; rfl⟩
    | .null => exact ⟨_, rfl⟩

theorem members_total (path : Path) (nodes : List Node) (h : ∀ n ∈ nodesOf nodes, n.kind ≠ .unsupported) :
    ∃ ts, members w path nodes = .ok ts := by
  match nodes with
  | [] => exact ⟨_, rfl⟩
  | node :: rest =>
    simp only [nodesOf, List.mem_append] at h
    obtain ⟨t, ht⟩ := type_total (.ofNode node :: path) node fun n hn => h n (.inl hn)
    obtain ⟨ts, hts⟩ := members_total path rest fun n hn => h n (.inr hn)
    exact ⟨_, by simp only [members, ht, hts]; rfl⟩

theorem elements_total (outer : Path) (i : Nat) (nodes : List Node) (h : ∀ n ∈ nodesOf nodes, n.kind ≠ .unsupported) :
    ∃ es, elements w outer i nodes = .ok es := by
  match nodes with
  | [] => exact ⟨_, rfl⟩
  | node :: rest =>
    simp only [nodesOf, List.mem_append] at h
    obtain ⟨t, ht⟩ := type_total (.ofNode node :: .tuple (some i) :: outer) node fun n hn => h n (.inl hn)
    obtain ⟨es, hes⟩ := elements_total outer (i + 1) rest fun n hn => h n (.inr hn)
    exact ⟨_, by simp only [elements, ht, hes]; rfl⟩

theorem restElements_total (outer : Path) (i : Nat) (more : Additional) (h : ∀ n ∈ more.nodes, n.kind ≠ .unsupported) :
    ∃ es, restElements w outer i more = .ok es := by
  match more with
  | .allowed flag => cases flag <;> exact ⟨_, rfl⟩
  | .node node =>
    obtain ⟨t, ht⟩ := type_total (.ofNode node :: .array :: .rest :: .tuple (some i) :: outer) node
      (by simpa [Additional.nodes] using h)
    exact ⟨_, by simp only [restElements, ht]; rfl⟩

theorem propertyMembers_total (path : Path) (named : List (String × Property))
    (h : ∀ n ∈ nodesOfProperties named, n.kind ≠ .unsupported) : ∃ ms, propertyMembers w path named = .ok ms := by
  match named with
  | [] => exact ⟨_, rfl⟩
  | (name, ⟨node, required⟩) :: rest =>
    simp only [nodesOfProperties, List.mem_append] at h
    obtain ⟨t, ht⟩ := type_total (.ofNode node :: .property name :: path) node fun n hn => h n (.inl hn)
    obtain ⟨ms, hms⟩ := propertyMembers_total path rest fun n hn => h n (.inr hn)
    exact ⟨_, by simp only [propertyMembers, ht, hms]; rfl⟩

theorem indexMembers_total (path : Path) (more : Additional) (h : ∀ n ∈ more.nodes, n.kind ≠ .unsupported) :
    ∃ ms, indexMembers w path more = .ok ms := by
  match more with
  | .allowed flag => cases flag <;> exact ⟨_, rfl⟩
  | .node node =>
    obtain ⟨t, ht⟩ := type_total (.ofNode node :: .other :: path) node (by simpa [Additional.nodes] using h)
    exact ⟨_, by simp only [indexMembers, ht]; rfl⟩

end

theorem ownMembers_total (path : Path) (object : Option Node)
    (h : ∀ o ∈ object, ∀ n ∈ o.nodes, n.kind ≠ .unsupported) : ∃ ms, ownMembers w path object = .ok ms := by
  match object with
  | none => exact ⟨_, rfl⟩
  | some ⟨kind, c, e, a, l⟩ =>
    replace h := h _ rfl
    cases kind
    case object named more =>
      simp only [Node.nodes, Kind.nodes, List.mem_cons, List.mem_append] at h
      obtain ⟨_, hn⟩ := propertyMembers_total w path named fun n hn => h n (.inr (.inl hn))
      obtain ⟨_, hm⟩ := indexMembers_total w path more fun n hn => h n (.inr (.inr hn))
      exact ⟨_, by simp only [ownMembers, objectMembers, hn, hm]; rfl⟩
    all_goals exact ⟨_, rfl⟩

end Encode

theorem NamedType.declaration_total (named : NamedType) (options : WriteOptions) (roots : List NamedType)
    (h : ∀ n ∈ named.node.nodes, n.kind ≠ .unsupported) : ∃ p, named.declaration options roots = .ok p := by
  cases hrec : record? roots named.node with
  | some record =>
    rw [ReadBack.declaration_record hrec]
    obtain ⟨ms, hms⟩ := Encode.ownMembers_total { useUnknown := options.useUnknown } [.declaration named.name]
      record.object fun o ho n hn => h n (((ReadBack.record_mem hrec).1 o ho).2 n hn)
    exact ⟨_, by rw [hms]; rfl⟩
  | none =>
    obtain ⟨t, ht⟩ := Encode.type_total { useUnknown := options.useUnknown }
      [.ofNode named.node, .declaration named.name] named.node h
    exact ⟨_, by simp only [NamedType.declaration, hrec, ht]; rfl⟩

/-- A document without unsupported nodes can be written. -/
theorem Document.declarations_total (d : Document) (options : WriteOptions)
    (h : ∀ t ∈ d.types, ∀ n ∈ t.node.nodes, n.kind ≠ .unsupported) : ∃ placed, d.declarations options = .ok placed := by
  unfold declarations
  generalize d.types = roots at h ⊢
  suffices hall : ∀ types : List NamedType, (∀ t ∈ types, ∀ n ∈ t.node.nodes, n.kind ≠ .unsupported) →
      ∃ placed, types.mapM (fun t => (t.declaration options roots).mapError (Error.inType t.name)) = .ok placed from
    hall roots h
  intro types h
  induction types with
  | nil => exact ⟨_, rfl⟩
  | cons t rest ih =>
    obtain ⟨p, hp⟩ := t.declaration_total options roots (h t List.mem_cons_self)
    obtain ⟨ps, hps⟩ := ih fun t ht => h t (List.mem_cons_of_mem _ ht)
    exact ⟨_, by rw [List.mapM_cons, hp, hps]; rfl⟩

end TypeSchema
