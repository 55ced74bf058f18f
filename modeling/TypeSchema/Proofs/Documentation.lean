import TypeSchema.Proofs.CommentContent
import TypeSchema.Proofs.Titles

namespace TypeSchema

mutual

/-- The comments in front of a type and inside it. -/
def TypeExpr.docs : TypeExpr → List String
  | ⟨kind, doc, _⟩ => doc.toList ++ kind.docs

def TypeKind.docs : TypeKind → List String
  | .reference _ _ args => docsOf args
  | .array element => element.docs
  | .tuple elements => elementDocs elements
  | .union members | .intersection members => docsOf members
  | .object members => memberDocs members
  | .parenthesized inner => inner.docs
  | _ => []

def docsOf : List TypeExpr → List String
  | [] => []
  | t :: rest => t.docs ++ docsOf rest

def elementDocs : List TupleElement → List String
  | [] => []
  | ⟨_, t, _⟩ :: rest => t.docs ++ elementDocs rest

def memberDocs : List Member → List String
  | [] => []
  | .property _ _ none doc _ :: rest => doc.toList ++ memberDocs rest
  | .property _ _ (some t) doc _ :: rest => doc.toList ++ t.docs ++ memberDocs rest
  | .index _ key value doc _ :: rest => doc.toList ++ key.docs ++ value.docs ++ memberDocs rest
  | .other _ :: rest => memberDocs rest

end

mutual

def Statement.docs : Statement → List String
  | .interface decl => decl.doc.toList ++ docsOf decl.heritage ++ memberDocs decl.members
  | .typeAlias decl => decl.doc.toList ++ decl.value.docs
  | .namespaced _ _ body _ => statementDocs body

def statementDocs : List Statement → List String
  | [] => []
  | s :: rest => s.docs ++ statementDocs rest

end

theorem elementDocs_append (es more : List TupleElement) :
    elementDocs (es ++ more) = elementDocs es ++ elementDocs more := by
  induction es with
  | nil => rfl
  | cons e rest ih =>
    obtain ⟨mark, t, label⟩ := e
    rw [List.cons_append, elementDocs, elementDocs, ih, List.append_assoc]

theorem memberDocs_append (ms more : List Member) : memberDocs (ms ++ more) = memberDocs ms ++ memberDocs more := by
  induction ms with
  | nil => rfl
  | cons m rest ih =>
    rw [List.cons_append]
    match m with
    | .property _ _ none _ _ | .property _ _ (some _) _ _ | .index _ _ _ _ _ | .other _ =>
      simp only [memberDocs, ih, List.append_assoc]

theorem TypeExpr.kind_docs_subset (t : TypeExpr) : t.kind.docs ⊆ t.docs := by
  obtain ⟨kind, doc, span⟩ := t
  rw [docs]
  exact List.subset_append_right _ _

namespace Encode

variable {w : Wording}

/-- The type of a node is among what is written. -/
def Written (w : Wording) (docs : List String) (node : Node) : Prop :=
  ∃ path t, type w path node = .ok t ∧ t.kind.docs ⊆ docs

/-- The comment of some annotations, if they have one, is among what is written. -/
def Noted (docs : List String) (annotations : Annotations) : Prop :=
  ∃ inferred, (commentOf annotations inferred).toList ⊆ docs

theorem Written.mono {docs more : List String} {node : Node} (h : Written w docs node) (hsub : docs ⊆ more) :
    Written w more node := by
  obtain ⟨path, t, ht, hdocs⟩ := h
  exact ⟨path, t, ht, List.Subset.trans hdocs hsub⟩

theorem Noted.mono {docs more : List String} {annotations : Annotations} (h : Noted docs annotations)
    (hsub : docs ⊆ more) : Noted more annotations := by
  obtain ⟨inferred, hdocs⟩ := h
  exact ⟨inferred, List.Subset.trans hdocs hsub⟩

/-- Each member of a union or an intersection is written behind its comment. -/
theorem members_written {path : Path} {all : List Node} {ts : List TypeExpr} (h : members w path all = .ok ts) :
    ∀ m ∈ all, Written w (docsOf ts) m ∧ Noted (docsOf ts) m.annotations := by
  induction all generalizing ts with
  | nil => exact fun m hm => absurd hm List.not_mem_nil
  | cons node rest ih =>
    simp only [members, bind_ok, pure_ok, Except.ok.injEq] at h
    obtain ⟨first, hfirst, others, hothers, rfl⟩ := h
    rw [docsOf, TypeExpr.docs]
    intro m hm
    rcases List.mem_cons.mp hm with rfl | hm
    · refine ⟨⟨_, first, hfirst, ?_⟩, ⟨Path.title? (.ofNode m :: path), ?_⟩⟩
      · exact List.subset_append_of_subset_left _ (List.subset_append_right _ _)
      · exact List.subset_append_of_subset_left _ (List.subset_append_left _ _)
    · obtain ⟨hwritten, hnoted⟩ := ih hothers m hm
      exact ⟨hwritten.mono (List.subset_append_right _ _), hnoted.mono (List.subset_append_right _ _)⟩

theorem elements_written {outer : Path} {i : Nat} {nodes : List Node} {es : List TupleElement}
    (h : elements w outer i nodes = .ok es) : ∀ m ∈ nodes, Written w (elementDocs es) m := by
  induction nodes generalizing i es with
  | nil => exact fun m hm => absurd hm List.not_mem_nil
  | cons node rest ih =>
    simp only [elements, bind_ok, pure_ok, Except.ok.injEq] at h
    obtain ⟨first, hfirst, others, hothers, rfl⟩ := h
    rw [TupleElement.plain, elementDocs]
    intro m hm
    rcases List.mem_cons.mp hm with rfl | hm
    · exact ⟨_, first, hfirst, List.subset_append_of_subset_left _ first.kind_docs_subset⟩
    · exact (ih hothers m hm).mono (List.subset_append_right _ _)

theorem propertyMembers_written {path : Path} {named : List (String × Property)} {ms : List Member}
    (h : propertyMembers w path named = .ok ms) :
    ∀ p ∈ named, Written w (memberDocs ms) p.2.node ∧ Noted (memberDocs ms) p.2.node.annotations := by
  induction named generalizing ms with
  | nil => exact fun p hp => absurd hp List.not_mem_nil
  | cons entry rest ih =>
    obtain ⟨name, node, required⟩ := entry
    simp only [propertyMembers, bind_ok, pure_ok, Except.ok.injEq] at h
    obtain ⟨value, hvalue, others, hothers, rfl⟩ := h
    rw [memberDocs]
    intro p hp
    rcases List.mem_cons.mp hp with rfl | hp
    · refine ⟨⟨_, value, hvalue, ?_⟩, ⟨Path.title? (.property name :: path), ?_⟩⟩
      · exact List.subset_append_of_subset_left _ (List.subset_append_of_subset_right _ value.kind_docs_subset)
      · exact List.subset_append_of_subset_left _ (List.subset_append_left _ _)
    · obtain ⟨hwritten, hnoted⟩ := ih hothers p hp
      exact ⟨hwritten.mono (List.subset_append_right _ _), hnoted.mono (List.subset_append_right _ _)⟩

theorem restElements_written {outer : Path} {i : Nat} {m : Node} {es : List TupleElement}
    (h : restElements w outer i (.node m) = .ok es) : Written w (elementDocs es) m := by
  simp only [restElements, bind_ok, pure_ok, Except.ok.injEq] at h
  obtain ⟨item, hitem, rfl⟩ := h
  refine ⟨_, item, hitem, ?_⟩
  simp only [elementDocs, TypeExpr.of, TypeExpr.docs, TypeKind.docs, Option.toList_none, List.nil_append, List.append_nil]
  exact item.kind_docs_subset

theorem indexMembers_written {path : Path} {m : Node} {ms : List Member}
    (h : indexMembers w path (.node m) = .ok ms) : Written w (memberDocs ms) m := by
  simp only [indexMembers, bind_ok, pure_ok, Except.ok.injEq] at h
  obtain ⟨value, hvalue, rfl⟩ := h
  refine ⟨_, value, hvalue, ?_⟩
  simp only [indexMember, memberDocs, List.append_nil]
  exact List.subset_append_of_subset_right _ value.kind_docs_subset

/-- What is one step inside a node is written inside its type, behind its comment if the step has one. -/
theorem type_step {path : Path} {node m : Node} {t : TypeExpr} {step : Step} (h : type w path node = .ok t)
    (hs : node.step? step = some m) :
    Written w t.kind.docs m ∧ (step.isCommented → Noted t.kind.docs m.annotations) := by
  cases Node.holds_of_step? hs with
  | orMember hm | andMember hm =>
    simp only [type, bind_ok, pure_ok, Except.ok.injEq] at h
    obtain ⟨ts, hts, rfl⟩ := h
    obtain ⟨hwritten, hnoted⟩ := members_written hts m (List.mem_of_getElem? hm)
    exact ⟨hwritten, fun _ => hnoted⟩
  | property hp =>
    simp only [type, bind_ok, pure_ok, Except.ok.injEq] at h
    obtain ⟨named, hnamed, more, hmore, rfl⟩ := h
    obtain ⟨hwritten, hnoted⟩ := propertyMembers_written hnamed _ (Entries.mem_of_get? hp)
    simp only [TypeExpr.of, TypeKind.docs, memberDocs_append]
    exact ⟨hwritten.mono (List.subset_append_left _ _), fun _ => hnoted.mono (List.subset_append_left _ _)⟩
  | objectMore =>
    simp only [type, bind_ok, pure_ok, Except.ok.injEq] at h
    obtain ⟨named, hnamed, more, hmore, rfl⟩ := h
    simp only [TypeExpr.of, TypeKind.docs, memberDocs_append]
    exact ⟨(indexMembers_written hmore).mono (List.subset_append_right _ _), fun hc => by cases hc⟩
  | element =>
    simp only [type, bind_ok, pure_ok, Except.ok.injEq] at h
    obtain ⟨element, helement, rfl⟩ := h
    exact ⟨⟨_, element, helement, element.kind_docs_subset⟩, fun hc => by cases hc⟩
  | item hm =>
    simp only [type, bind_ok, pure_ok, Except.ok.injEq] at h
    obtain ⟨items, hitems, more, hmore, rfl⟩ := h
    simp only [TypeExpr.of, TypeKind.docs, elementDocs_append]
    have hwritten := elements_written hitems m (List.mem_of_getElem? hm)
    exact ⟨hwritten.mono (List.subset_append_left _ _), fun hc => by cases hc⟩
  | tupleMore =>
    simp only [type, bind_ok, pure_ok, Except.ok.injEq] at h
    obtain ⟨items, hitems, more, hmore, rfl⟩ := h
    simp only [TypeExpr.of, TypeKind.docs, elementDocs_append]
    exact ⟨(restElements_written hmore).mono (List.subset_append_right _ _), fun hc => by cases hc⟩

/-- However far inside, what stands at a place with a comment is written behind it. -/
theorem Written.noted {docs : List String} {node m : Node} {step : Step} {place : List Step} (h : Written w docs node)
    (hat : node.at? (step :: place) = some m) (hplace : Commented (step :: place)) : Noted docs m.annotations := by
  induction place generalizing node step with
  | nil =>
    obtain ⟨path, t, ht, hdocs⟩ := h
    obtain ⟨inner, hstep, hinner⟩ := Option.bind_eq_some_iff.mp hat
    obtain rfl := Option.some.inj hinner
    exact ((type_step ht hstep).2 (hplace step rfl)).mono hdocs
  | cons next place ih =>
    obtain ⟨path, t, ht, hdocs⟩ := h
    obtain ⟨inner, hstep, hinner⟩ := Option.bind_eq_some_iff.mp hat
    exact ih ((type_step ht hstep).1.mono hdocs) hinner hplace

/-- The own members of a record are written as the object that they are. -/
theorem ownMembers_written {path : Path} {object : Option Node} {ms : List Member} (h : ownMembers w path object = .ok ms) :
    Written w (memberDocs ms) (ownTree object) := by
  refine ⟨path, .of (.object ms), ?_, List.Subset.refl _⟩
  match object with
  | none =>
    obtain rfl := Except.ok.inj h
    rfl
  | some ⟨kind, c, e, a, l⟩ =>
    cases kind
    case object named more =>
      simp only [ownMembers, objectMembers, bind_ok, pure_ok, Except.ok.injEq] at h
      obtain ⟨named', hnamed, more', hmore, rfl⟩ := h
      simp only [ownTree, Node.of, type, hnamed, hmore]
      rfl
    all_goals
      obtain rfl := Except.ok.inj h
      rfl

end Encode

/-- Where nothing is said, no comment is needed. -/
theorem Encode.noted_empty (docs : List String) : Encode.Noted docs {} := by
  refine ⟨none, ?_⟩
  have hnone : commentOf {} none = none := by rfl
  rw [hnone]
  exact List.nil_subset _

/-- The names that a record extends say nothing, and its own members are written behind their comments. -/
theorem Heritage.noted {w : Wording} {record : Heritage} {path : Path} {ms : List Member}
    (h : Encode.ownMembers w path record.object = .ok ms) {step : Step} {place : List Step} {m : Node}
    (hat : record.tree.at? (step :: place) = some m) (hplace : Commented (step :: place)) :
    Encode.Noted (memberDocs ms) m.annotations := by
  have hown := Encode.ownMembers_written h
  unfold Heritage.tree at hat
  split at hat
  · exact hown.noted hat hplace
  · obtain ⟨inner, hstep, hat⟩ := Option.bind_eq_some_iff.mp hat
    have hmember : (∃ name, inner = .of (.ref name)) ∨ inner = ownTree record.object := by
      cases Node.holds_of_step? hstep with
      | andMember hi =>
        rcases List.mem_append.mp (List.mem_of_getElem? hi) with hi | hi
        · obtain ⟨name, -, rfl⟩ := List.mem_map.mp hi
          exact .inl ⟨name, rfl⟩
        · exact .inr (List.mem_singleton.mp hi)
    cases place with
    | nil =>
      obtain rfl := Option.some.inj hat
      have hempty : inner.annotations = {} := by
        rcases hmember with ⟨name, rfl⟩ | rfl
        · rfl
        · exact ReadBack.ownTree_annotations record.object
      exact hempty ▸ Encode.noted_empty _
    | cons next place =>
      rcases hmember with ⟨name, rfl⟩ | rfl
      · cases hat
      · exact hown.noted hat hplace

/-- What annotations say is part of a comment of the statement, wherever a comment is written. -/
theorem NamedType.declaration_noted {named : NamedType} {options : WriteOptions} {roots : List NamedType} {p : Placed}
    (h : named.declaration options roots = .ok p) {place : List Step} {m : Node}
    (hat : (named.tree roots).at? place = some m) (hplace : Commented place) :
    Encode.Noted p.statement.docs m.annotations := by
  unfold NamedType.tree at hat
  cases hrec : record? roots named.node with
  | some record =>
    rw [ReadBack.declaration_record hrec, bind_ok] at h
    obtain ⟨ms, hms, h⟩ := h
    obtain rfl := Except.ok.inj h
    rw [hrec] at hat
    simp only [Statement.docs]
    cases place with
    | nil =>
      obtain rfl := Option.some.inj hat
      exact ⟨some named.name, List.subset_append_of_subset_left _ (List.subset_append_left _ _)⟩
    | cons step place =>
      rw [Node.at?_annotated] at hat
      exact (record.noted hms hat hplace).mono (List.subset_append_right _ _)
  | none =>
    simp only [NamedType.declaration, hrec, bind_ok, pure_ok, Except.ok.injEq] at h
    obtain ⟨value, hvalue, rfl⟩ := h
    rw [hrec] at hat
    simp only [Statement.docs]
    cases place with
    | nil =>
      obtain rfl := Option.some.inj hat
      exact ⟨some named.name, List.subset_append_left _ _⟩
    | cons step place =>
      have hwritten : Encode.Written _ value.docs named.node := ⟨_, value, hvalue, value.kind_docs_subset⟩
      exact (hwritten.noted hat hplace).mono (List.subset_append_right _ _)

mutual

/-- The node, with nothing said by the nodes inside it that have no comments. -/
def Node.muted : Node → Node
  | ⟨kind, constant, enumeration, annotations, loc⟩ => ⟨kind.muted, constant, enumeration, annotations, loc⟩

def Kind.muted : Kind → Kind
  | .or all => .or (mutedAll all)
  | .and all => .and (mutedAll all)
  | .array element => .array (element.muted.annotated {})
  | .tuple items more minItems => .tuple (silencedAll items) more.muted minItems
  | .object named more => .object (mutedIn named) more.muted
  | kind => kind

def Additional.muted : Additional → Additional
  | .allowed flag => .allowed flag
  | .node node => .node (node.muted.annotated {})

/-- Members of a union or an intersection keep what they say. -/
def mutedAll : List Node → List Node
  | [] => []
  | node :: rest => node.muted :: mutedAll rest

def silencedAll : List Node → List Node
  | [] => []
  | node :: rest => node.muted.annotated {} :: silencedAll rest

/-- Properties keep what they say. -/
def mutedIn : List (String × Property) → List (String × Property)
  | [] => []
  | (name, ⟨node, required⟩) :: rest => (name, ⟨node.muted, required⟩) :: mutedIn rest

end

/-- The type, with nothing said where no comment is written: not by the members of an intersection that is declared as a
record either. -/
def NamedType.muted (roots : List NamedType) (named : NamedType) : NamedType where
  name := named.name
  node := match named.node with
    | ⟨.and all, constant, enumeration, annotations, loc⟩ =>
      if (heritage? roots all).isSome then ⟨.and (silencedAll all), constant, enumeration, annotations, loc⟩
      else named.node.muted
    | node => node.muted

def Document.muted (d : Document) : Document := ⟨d.version, d.types.map (NamedType.muted d.types)⟩

@[simp] theorem Node.annotations_muted (node : Node) : node.muted.annotations = node.annotations := by
  cases node
  rw [muted]

@[simp] theorem Ancestor.ofNode_muted (node : Node) : ofNode node.muted = ofNode node := by
  obtain ⟨kind, constant, enumeration, annotations, loc⟩ := node
  cases kind <;> cases constant <;> cases enumeration <;> rfl

@[simp] theorem Ancestor.ofNode_annotated (node : Node) (a : Annotations) : ofNode (node.annotated a) = ofNode node := by
  obtain ⟨kind, constant, enumeration, annotations, loc⟩ := node
  cases kind <;> cases constant <;> cases enumeration <;> rfl

theorem mutedAll_eq_map (nodes : List Node) : mutedAll nodes = nodes.map Node.muted := by
  induction nodes with
  | nil => rfl
  | cons node rest ih => rw [mutedAll, List.map_cons, ih]

theorem silencedAll_eq_map (nodes : List Node) : silencedAll nodes = nodes.map fun n => n.muted.annotated {} := by
  induction nodes with
  | nil => rfl
  | cons node rest ih => rw [silencedAll, List.map_cons, ih]

theorem length_silencedAll (nodes : List Node) : (silencedAll nodes).length = nodes.length := by
  rw [silencedAll_eq_map, List.length_map]

namespace Encode

variable (w : Wording)

/-- The type of a node does not depend on what the node says itself. -/
theorem type_annotated (path : Path) (node : Node) (a : Annotations) :
    type w path (node.annotated a) = type w path node := by
  obtain ⟨kind, constant, enumeration, annotations, loc⟩ := node
  cases kind <;> cases constant <;> cases enumeration <;> simp only [Node.annotated, type]

mutual

/-- Nor does it depend on what nodes inside it say that have no comments. -/
theorem type_muted (path : Path) (node : Node) : type w path node.muted = type w path node := by
  match node with
  | ⟨.or all, c, e, a, l⟩ | ⟨.and all, c, e, a, l⟩ =>
    rw [Node.muted, Kind.muted, type, type, members_muted path all]
  | ⟨.object named more, none, none, a, l⟩ =>
    rw [Node.muted, Kind.muted, type, type, propertyMembers_muted path named, indexMembers_muted path more]
  | ⟨.array element, none, none, a, l⟩ =>
    rw [Node.muted, Kind.muted, type, type, type_annotated, Ancestor.ofNode_annotated, Ancestor.ofNode_muted,
      type_muted _ element]
  | ⟨.tuple items more n, none, none, a, l⟩ =>
    rw [Node.muted, Kind.muted, type, type, elements_muted _ 0 items, length_silencedAll, restElements_muted _ _ more]
  | ⟨.object _ _, some _, _, _, _⟩ | ⟨.array _, some _, _, _, _⟩ | ⟨.tuple _ _ _, some _, _, _, _⟩ =>
    rw [Node.muted, Kind.muted, type, type] <;> simp
  | ⟨.object _ _, none, some _, _, _⟩ | ⟨.array _, none, some _, _, _⟩ | ⟨.tuple _ _ _, none, some _, _, _⟩ =>
    rw [Node.muted, Kind.muted, type, type] <;> simp
  | ⟨.any, _, _, _, _⟩ | ⟨.null, _, _, _, _⟩ | ⟨.string, _, _, _, _⟩ | ⟨.number, _, _, _, _⟩ | ⟨.integer, _, _, _, _⟩
  | ⟨.boolean, _, _, _, _⟩ | ⟨.ref _, _, _, _, _⟩ | ⟨.unsupported, _, _, _, _⟩ => rfl

theorem members_muted (path : Path) (nodes : List Node) : members w path (mutedAll nodes) = members w path nodes := by
  match nodes with
  | [] => rfl
  | node :: rest =>
    rw [mutedAll, members, members, Ancestor.ofNode_muted, type_muted _ node, members_muted path rest,
      Node.annotations_muted]

theorem elements_muted (outer : Path) (i : Nat) (nodes : List Node) :
    elements w outer i (silencedAll nodes) = elements w outer i nodes := by
  match nodes with
  | [] => rfl
  | node :: rest =>
    rw [silencedAll, elements, elements, Ancestor.ofNode_annotated, Ancestor.ofNode_muted, type_annotated,
      type_muted _ node, elements_muted outer (i + 1) rest]

theorem restElements_muted (outer : Path) (i : Nat) (more : Additional) :
    restElements w outer i more.muted = restElements w outer i more := by
  match more with
  | .allowed flag => rw [Additional.muted]
  | .node node =>
    rw [Additional.muted, restElements, restElements, Ancestor.ofNode_annotated, Ancestor.ofNode_muted, type_annotated,
      type_muted _ node]

theorem propertyMembers_muted (path : Path) (named : List (String × Property)) :
    propertyMembers w path (mutedIn named) = propertyMembers w path named := by
  match named with
  | [] => rfl
  | (name, ⟨node, required⟩) :: rest =>
    rw [mutedIn, propertyMembers, propertyMembers, Ancestor.ofNode_muted, type_muted _ node,
      propertyMembers_muted path rest, Node.annotations_muted]

theorem indexMembers_muted (path : Path) (more : Additional) :
    indexMembers w path more.muted = indexMembers w path more := by
  match more with
  | .allowed flag => rw [Additional.muted]
  | .node node =>
    rw [Additional.muted, indexMembers, indexMembers, Ancestor.ofNode_annotated, Ancestor.ofNode_muted, type_annotated,
      type_muted _ node]

end

theorem objectMembers_muted (path : Path) (node : Node) : objectMembers w path node.muted = objectMembers w path node := by
  obtain ⟨kind, c, e, a, l⟩ := node
  cases kind
  case object named more =>
    simp only [Node.muted, Kind.muted, objectMembers, propertyMembers_muted, indexMembers_muted]
  all_goals rfl

theorem objectMembers_annotated (path : Path) (node : Node) (a : Annotations) :
    objectMembers w path (node.annotated a) = objectMembers w path node := by
  obtain ⟨kind, c, e, annotations, l⟩ := node
  cases kind <;> rfl

end Encode

theorem Node.isObject_muted (node : Node) : node.muted.kind.isObject = node.kind.isObject := by
  obtain ⟨kind, c, e, a, l⟩ := node
  cases kind <;> rfl

theorem Node.ref?_muted (node : Node) : node.muted.kind.ref? = node.kind.ref? := by
  obtain ⟨kind, c, e, a, l⟩ := node
  cases kind <;> rfl

/-- One member more: an object is the first one, and a reference names an object. -/
theorem heritage?_cons (roots : List NamedType) (node : Node) (rest : List Node) :
    heritage? roots (node :: rest) = (heritage? roots rest).bind fun h =>
      if node.kind.isObject then if h.object.isSome then none else some { h with object := some node }
      else node.kind.ref?.bind fun name =>
        if namesObject roots name then some { h with parents := name :: h.parents } else none := by
  rw [heritage?]
  cases heritage? roots rest with
  | none => rfl
  | some h =>
    obtain ⟨kind, c, e, a, l⟩ := node
    cases kind <;> rfl

/-- What is inherited depends on which members are objects, and on which are references. -/
theorem heritage?_map (roots : List NamedType) {f : Node → Node} (hobject : ∀ n, (f n).kind.isObject = n.kind.isObject)
    (href : ∀ n, (f n).kind.ref? = n.kind.ref?) (nodes : List Node) :
    heritage? roots (nodes.map f) = (heritage? roots nodes).map fun h => { h with object := h.object.map f } := by
  induction nodes with
  | nil => rfl
  | cons node rest ih =>
    rw [List.map_cons, heritage?_cons, heritage?_cons, ih, hobject, href]
    cases heritage? roots rest with
    | none => rfl
    | some h =>
      simp only [Option.map_some, Option.bind_some, Option.isSome_map]
      split
      · split <;> rfl
      · cases node.kind.ref? with
        | none => rfl
        | some name =>
          simp only [Option.bind_some]
          split <;> rfl

namespace NamedType

theorem isObject_muted (roots : List NamedType) (named : NamedType) :
    (named.muted roots).node.kind.isObject = named.node.kind.isObject := by
  obtain ⟨name, kind, c, e, a, l⟩ := named
  cases kind
  case and all =>
    simp only [muted]
    split <;> rfl
  all_goals rfl

theorem namesObject_muted (roots : List NamedType) (name : String) :
    namesObject (roots.map (muted roots)) name = namesObject roots name := by
  simp only [namesObject, List.any_map, Function.comp_def, isObject_muted]
  rfl

theorem heritage?_roots (roots : List NamedType) (nodes : List Node) :
    heritage? (roots.map (muted roots)) nodes = heritage? roots nodes := by
  induction nodes with
  | nil => rfl
  | cons node rest ih => simp only [heritage?_cons, ih, namesObject_muted]

/-- A type is a record, or is none, whatever is said inside it; and its own members are written alike. -/
theorem record?_muted (roots : List NamedType) (named : NamedType) :
    ∃ f : Node → Node, (∀ w path node, Encode.objectMembers w path (f node) = Encode.objectMembers w path node) ∧
      record? (roots.map (muted roots)) (named.muted roots).node =
        (record? roots named.node).map fun h => { h with object := h.object.map f } := by
  obtain ⟨name, kind, c, e, a, l⟩ := named
  cases kind
  case and all =>
    by_cases hrecord : (heritage? roots all).isSome
    · refine ⟨fun n => n.muted.annotated {}, ?_, ?_⟩
      · intro w path node
        rw [Encode.objectMembers_annotated, Encode.objectMembers_muted]
      · simp only [muted, hrecord, if_true, record?, heritage?_roots, silencedAll_eq_map]
        exact heritage?_map (f := fun n => n.muted.annotated {}) roots Node.isObject_muted Node.ref?_muted all
    · refine ⟨Node.muted, Encode.objectMembers_muted, ?_⟩
      simp only [muted, hrecord, Node.muted, Kind.muted, record?, heritage?_roots, mutedAll_eq_map]
      exact heritage?_map roots Node.isObject_muted Node.ref?_muted all
  case object named more =>
    refine ⟨Node.muted, Encode.objectMembers_muted, ?_⟩
    cases c <;> cases e <;> rfl
  all_goals exact ⟨id, fun _ _ _ => rfl, rfl⟩

theorem annotations_muted (roots : List NamedType) (named : NamedType) :
    (named.muted roots).node.annotations = named.node.annotations := by
  obtain ⟨name, kind, c, e, a, l⟩ := named
  cases kind
  case and all =>
    simp only [muted]
    split <;> rfl
  all_goals rfl

/-- What is no record is muted as a node. -/
theorem node_muted {roots : List NamedType} {named : NamedType} (h : record? roots named.node = none) :
    (named.muted roots).node = named.node.muted := by
  obtain ⟨name, kind, c, e, a, l⟩ := named
  cases kind
  case and all =>
    have hnone : heritage? roots all = none := h
    simp [muted, hnone]
  all_goals rfl

theorem declaration_muted (named : NamedType) (options : WriteOptions) (roots : List NamedType) :
    (named.muted roots).declaration options (roots.map (muted roots)) = named.declaration options roots := by
  obtain ⟨f, hf, hrecord⟩ := named.record?_muted roots
  have hname : (named.muted roots).name = named.name := by rfl
  cases hrec : record? roots named.node with
  | some h =>
    rw [hrec, Option.map_some] at hrecord
    rw [ReadBack.declaration_record hrec, ReadBack.declaration_record hrecord, hname, annotations_muted]
    cases h.object with
    | none => rfl
    | some object => simp only [Option.map_some, Encode.ownMembers, hf]
  | none =>
    rw [hrec, Option.map_none] at hrecord
    simp only [declaration, hrecord, hrec]
    rw [hname, annotations_muted, node_muted hrec, Ancestor.ofNode_muted, Encode.type_muted]

end NamedType

/-- The text does not depend on what is said where no comment is written. -/
theorem Document.emit_muted (d : Document) (options : WriteOptions) : d.muted.emit options = d.emit options := by
  have hnames : d.muted.types.map NamedType.name = d.types.map NamedType.name := by
    rw [muted, List.map_map]
    rfl
  have hplaced : d.muted.declarations options = d.declarations options := by
    simp only [declarations, muted, List.mapM_map, Function.comp_def, NamedType.declaration_muted]
    rfl
  rw [emit, emit, emitWith, emitWith, hnames, hplaced]
  rfl

/-- Of the documentation of a document, just that of its types, their properties, and the members of their unions and
intersections is written: each such text is part of a comment of the declaration, and the text of the document is the
same if nothing else is said. -/
theorem Document.documentation_written (d : Document) (options : WriteOptions) :
    (∀ placed, d.declarations options = .ok placed →
      List.Forall₂ (fun t p => ∀ place node, (t.tree d.types).at? place = some node → Commented place →
        ∀ text ∈ DocComment.shownTexts node.annotations, trim text ≠ [] →
          ∃ doc ∈ p.statement.docs, DocComment.Says doc text) d.types placed) ∧
    d.muted.emit options = d.emit options := by
  refine ⟨fun placed hplaced => ?_, d.emit_muted options⟩
  refine (declarations_ok hplaced).imp fun t p hp place node hat hplace text htext hne => ?_
  obtain ⟨inferred, hnoted⟩ := NamedType.declaration_noted hp hat hplace
  obtain ⟨doc, hdoc, hsays⟩ := DocComment.exists_says inferred htext hne
  exact ⟨doc, hnoted (by rw [commentOf, hdoc]; exact List.mem_singleton_self doc), hsays⟩

/-- What a tuple says is written, and what an element of it says is not: it makes no difference. -/
theorem Document.documentation_written_pair :
    let said (text : String) : Annotations := { description := some text }
    let pair (first : Annotations) : Document := ⟨currentVersion, [⟨"Pair", {
      kind := .tuple [{ kind := .string, annotations := first }, .of .number] (.allowed false) 2
      annotations := said "Two of them." }⟩]⟩
    ∃ p, (pair (said "First.")).declarations {} = .ok [p] ∧ p.statement.docs = ["/** Two of them. */"] ∧
      (∃ doc ∈ p.statement.docs, DocComment.Says doc "Two of them.".toList) ∧
      (pair (said "First.")).emit {} = (pair {}).emit {} := by
  intro said pair
  obtain ⟨hwritten, hsilent⟩ := (pair (said "First.")).documentation_written {}
  have hplaced : (pair (said "First.")).declarations {} = .ok [⟨[], .typeAlias {
      name := "Pair", exported := true, declare := false, doc := some "/** Two of them. */"
      value := .of (.tuple [.plain (.of (.keyword .string)), .plain (.of (.keyword .number))]) }⟩] := by
    simp only [pair, said, declarations, List.mapM_cons, List.mapM_nil, NamedType.declaration, record?, Encode.type,
      Encode.elements, Encode.restElements, Node.of]
    rfl
  refine ⟨_, hplaced, rfl, ?_, hsilent.symm⟩
  obtain ⟨hpair, -⟩ := List.forall₂_cons.mp (hwritten _ hplaced)
  exact hpair [] _ rfl (by decide) _ (List.mem_cons_self) (by decide)

end TypeSchema
