import TypeSchema.Proofs.RoundTrip

namespace TypeSchema

/-- A title is read back at its place: it is left out of the comment just where the place gives it. -/
theorem Annotations.Canonical.read_title {a : Annotations} (h : a.Canonical) {title : String} (ht : a.title = some title)
    (path : Path) : (DocComment.read (commentOf a path.title?) path).title = some title := by
  rw [commentOf, h.title_read path fun hn => absurd (ht.symm.trans hn) (by simp), ht, Option.some_or]

/-- A step from a node to one inside it. -/
inductive Step
  | member (i : Nat)
  | property (name : String)
  | item (i : Nat)
  | element
  /-- What a tuple or an object may hold beside what it lists. -/
  | more
deriving DecidableEq

namespace Step

/-- Does a comment stand in front of what the step leads to? -/
def isCommented : Step → Bool
  | member _ | property _ => true
  | _ => false

end Step

/-- The node one step inside. There is nothing inside a constant or an enumeration. -/
def Node.step? (step : Step) : Node → Option Node
  | ⟨.or all, _, _, _, _⟩ | ⟨.and all, _, _, _, _⟩ =>
    match step with
    | .member i => all[i]?
    | _ => none
  | ⟨.object properties additional, none, none, _, _⟩ =>
    match step, additional with
    | .property name, _ => (Entries.get? name properties).map Property.node
    | .more, .node node => some node
    | _, _ => none
  | ⟨.array element, none, none, _, _⟩ => if step = .element then some element else none
  | ⟨.tuple items additional _, none, none, _, _⟩ =>
    match step, additional with
    | .item i, _ => items[i]?
    | .more, .node node => some node
    | _, _ => none
  | _ => none

/-- The node at a place. -/
def Node.at? (node : Node) : List Step → Option Node
  | [] => some node
  | step :: place => (node.step? step).bind (·.at? place)

/-- The annotations of what stands at the place are written: it is the type itself, a property, or a member of a union
or an intersection. -/
def Commented (place : List Step) : Prop := ∀ step ∈ place.getLast?, step.isCommented = true

instance (place : List Step) : Decidable (Commented place) :=
  inferInstanceAs (Decidable (∀ step ∈ place.getLast?, step.isCommented = true))

/-- The own members of a record as an object, whatever else is written of it. -/
def ownTree : Option Node → Node
  | some ⟨.object properties additional, _, _, _, _⟩ => .of (.object properties additional)
  | _ => .of (.object [] (.allowed false))

/-- The tree that a record is declared as: its own members, behind the names that it extends. -/
def Heritage.tree (h : Heritage) : Node :=
  if h.parents.isEmpty then ownTree h.object
  else .of (.and (h.parents.map (fun name => .of (.ref name)) ++ [ownTree h.object]))

/-- The tree that a type is declared as among the types of its document. -/
def NamedType.tree (roots : List NamedType) (named : NamedType) : Node :=
  match record? roots named.node with
  | some h => h.tree.annotated named.node.annotations
  | none => named.node

namespace Node

/-- Annotations are no part of what is inside. -/
theorem step?_annotated (node : Node) (annotations : Annotations) (step : Step) :
    (node.annotated annotations).step? step = node.step? step := by
  obtain ⟨kind, constant, enumeration, _, loc⟩ := node
  cases kind <;> cases constant <;> cases enumeration <;> rfl

theorem step?_layer (node : Node) (top : Annotations) (step : Step) : (node.layer top).step? step = node.step? step :=
  node.step?_annotated _ step

/-- The steps that there are. -/
inductive Holds : Step → Node → Node → Prop
  | orMember {all : List Node} {i : Nat} {m : Node} {c e a l} (h : all[i]? = some m) :
    Holds (.member i) ⟨.or all, c, e, a, l⟩ m
  | andMember {all : List Node} {i : Nat} {m : Node} {c e a l} (h : all[i]? = some m) :
    Holds (.member i) ⟨.and all, c, e, a, l⟩ m
  | property {named : List (String × Property)} {more : Additional} {name : String} {p : Property} {a l}
    (h : Entries.get? name named = some p) : Holds (.property name) ⟨.object named more, none, none, a, l⟩ p.node
  | objectMore {named : List (String × Property)} {m : Node} {a l} :
    Holds .more ⟨.object named (.node m), none, none, a, l⟩ m
  | element {m : Node} {a l} : Holds .element ⟨.array m, none, none, a, l⟩ m
  | item {items : List Node} {more : Additional} {n i : Nat} {m : Node} {a l} (h : items[i]? = some m) :
    Holds (.item i) ⟨.tuple items more n, none, none, a, l⟩ m
  | tupleMore {items : List Node} {n : Nat} {m : Node} {a l} :
    Holds .more ⟨.tuple items (.node m) n, none, none, a, l⟩ m

theorem holds_of_step? {node m : Node} {step : Step} (h : node.step? step = some m) : Holds step node m := by
  unfold step? at h
  split at h
  · split at h
    · exact .orMember h
    · cases h
  · split at h
    · exact .andMember h
    · cases h
  · split at h
    · obtain ⟨p, hp, rfl⟩ := Option.map_eq_some_iff.mp h
      exact .property hp
    · cases h
      exact .objectMore
    · cases h
  · split at h
    · next hs =>
      cases h
      exact hs ▸ .element
    · cases h
  · split at h
    · exact .item h
    · cases h
      exact .tupleMore
    · cases h
  · cases h

/-- What a comment stands in front of is among the nodes that have one. -/
theorem mem_commented {node m : Node} {step : Step} (h : node.step? step = some m) (hc : step.isCommented) :
    m ∈ node.kind.commented := by
  cases holds_of_step? h with
  | orMember hm | andMember hm => exact List.mem_of_getElem? hm
  | property hp => exact List.mem_map.mpr ⟨_, Entries.mem_of_get? hp, rfl⟩
  | objectMore | element | item hm | tupleMore => cases hc

/-- What is one step inside is part of the tree. -/
theorem mem_nodes_of_step? {node m : Node} {step : Step} (h : node.step? step = some m) {n : Node} (hn : n ∈ m.nodes) :
    n ∈ node.nodes := by
  rw [node.nodes_eq]
  refine List.mem_cons_of_mem _ ?_
  cases holds_of_step? h with
  | orMember hm | andMember hm => exact mem_nodesOf.mpr ⟨m, List.mem_of_getElem? hm, hn⟩
  | property hp => exact List.mem_append_left _ (mem_nodesOfProperties.mpr ⟨_, Entries.mem_of_get? hp, hn⟩)
  | objectMore | tupleMore => exact List.mem_append_right _ hn
  | element => exact hn
  | item hm => exact List.mem_append_left _ (mem_nodesOf.mpr ⟨m, List.mem_of_getElem? hm, hn⟩)

theorem at?_layer (node : Node) (top : Annotations) (step : Step) (place : List Step) :
    (node.layer top).at? (step :: place) = node.at? (step :: place) := by
  rw [at?, at?, step?_layer]

theorem at?_annotated (node : Node) (annotations : Annotations) (step : Step) (place : List Step) :
    (node.annotated annotations).at? (step :: place) = node.at? (step :: place) := by
  rw [at?, at?, step?_annotated]

end Node

namespace ReadBack

variable {rename : String → String}

theorem members_eq (path : Path) (all : List Node) :
    members rename path all = all.map fun node =>
      under (commentOf node.annotations (Path.title? (.ofNode node :: path))) (.ofNode node :: path)
        (content rename (.ofNode node :: path) node) := by
  induction all with
  | nil => rfl
  | cons node rest ih => rw [members, ih, List.map_cons]

theorem getElem?_elements (outer : Path) (first : Nat) (items : List Node) (i : Nat) :
    (elements rename outer first items)[i]? = items[i]?.map fun node =>
      under none (.ofNode node :: .tuple (some (first + i)) :: outer)
        (content rename (.ofNode node :: .tuple (some (first + i)) :: outer) node) := by
  induction items generalizing first i with
  | nil => rfl
  | cons node rest ih =>
    cases i with
    | zero => rfl
    | succ i =>
      rw [elements, List.getElem?_cons_succ, List.getElem?_cons_succ, ih, Nat.add_right_comm, Nat.add_assoc]

theorem get?_properties (path : Path) (named : List (String × Property)) (name : String) :
    Entries.get? name (properties rename path named) = (Entries.get? name named).map fun p =>
      ⟨under (commentOf p.node.annotations (Path.title? (.property name :: path))) (.property name :: path)
        (under none (.ofNode p.node :: .property name :: path)
          (content rename (.ofNode p.node :: .property name :: path) p.node)), p.required⟩ := by
  induction named with
  | nil => rfl
  | cons entry rest ih =>
    obtain ⟨key, node, required⟩ := entry
    simp only [properties, Entries.get?]
    split
    · next h =>
      subst h
      rfl
    · exact ih

/-- A node stands for another at the end of a step: what is inside is read back of it, and the title is there if the
comment is. -/
structure Stands (rename : String → String) (step : Step) (node back : Node) : Prop where
  inside : ∃ path, ∀ next, back.step? next = (content rename path node).step? next
  title : step.isCommented → node.annotations.Canonical → ∀ title ∈ node.annotations.title,
    back.annotations.title = some title

theorem under_title {a : Annotations} (h : a.Canonical) {title : String} (ht : title ∈ a.title) (path : Path)
    (node : Node) : (under (commentOf a path.title?) path node).annotations.title = some title := by
  simp only [under, Node.layer, Annotations.layer, h.read_title ht path, Option.some_or]

theorem stands_under (step : Step) (node : Node) (path : Path) (h : step.isCommented = false) :
    Stands rename step node (under none path (content rename path node)) :=
  ⟨⟨path, fun next => Node.step?_layer _ _ next⟩, fun hc => by rw [h] at hc; cases hc⟩

theorem step?_of_any {path : Path} {node : Node} (h : (content rename path node).kind.isAny) (step : Step) :
    node.step? step = none := by
  obtain ⟨kind, constant, enumeration, annotations, loc⟩ := node
  cases kind <;> cases constant <;> cases enumeration <;> first | rfl | cases h

/-- What is one step inside a node is read back one step inside, unless it is a rest of `any`. -/
theorem content_step (path : Path) {node m : Node} {step : Step} (h : node.step? step = some m) :
    (∃ back, (content rename path node).step? step = some back ∧ Stands rename step m back) ∨
      step.isCommented = false ∧ ∀ next, m.step? next = none := by
  cases Node.holds_of_step? h with
  | orMember hm | andMember hm =>
    refine .inl ⟨_, by simp only [content, Node.of, Node.step?, members_eq, List.getElem?_map, hm, Option.map_some]; rfl, ?_⟩
    exact ⟨⟨_, fun next => Node.step?_layer _ _ next⟩, fun _ hc title ht => under_title hc ht _ _⟩
  | @property named more name p a l hp =>
    refine .inl ⟨_, by simp only [content, Node.of, Node.step?, get?_properties, hp, Option.map_some]; rfl, ?_⟩
    refine ⟨⟨.ofNode p.node :: .property name :: path, fun next => ?_⟩, fun _ hc title ht => under_title hc ht _ _⟩
    exact (Node.step?_layer _ _ next).trans (Node.step?_layer _ _ next)
  | objectMore =>
    exact .inl ⟨_, by simp only [content, Node.of, Node.step?, additional]; rfl, stands_under .more m _ rfl⟩
  | element =>
    exact .inl ⟨_, by simp only [content, Node.of, Node.step?, if_true]; rfl, stands_under .element m _ rfl⟩
  | @item items more n i _ a l hm =>
    refine .inl ⟨_, by simp only [content, Node.of, Node.step?, getElem?_elements, hm, Option.map_some]; rfl, ?_⟩
    exact stands_under (.item i) m _ rfl
  | @tupleMore items n _ a l =>
    let path' : Path := .ofNode m :: .array :: .rest :: .tuple (some items.length) :: path.tail
    by_cases hany : (content rename path' m).kind.isAny
    · exact .inr ⟨rfl, step?_of_any hany⟩
    · refine .inl ⟨under none path' (content rename path' m), ?_, stands_under .more m path' rfl⟩
      have hrest : rest rename path.tail items.length (.node m) = .node (under none path' (content rename path' m)) := by
        rw [rest, Additional.ofRest]
        exact if_neg hany
      simp only [content, Node.of, Node.step?, hrest]

/-- At each place inside a node whose comment is written, the title is read back. -/
theorem content_at (path : Path) {node m : Node} {step : Step} {place : List Step} (h : node.at? (step :: place) = some m)
    (hplace : Commented (step :: place)) (hcanonical : ∀ n ∈ node.nodes, ∀ m ∈ n.kind.commented, m.annotations.Canonical)
    {title : String} (ht : title ∈ m.annotations.title) :
    ∃ back, (content rename path node).at? (step :: place) = some back ∧ back.annotations.title = some title := by
  induction place generalizing path node step with
  | nil =>
    rw [Node.at?, Option.bind_eq_some_iff] at h
    obtain ⟨m', hstep, hm⟩ := h
    cases hm
    have hcommented : step.isCommented := hplace step rfl
    rcases content_step path hstep with ⟨back, hback, hstands⟩ | ⟨hnot, -⟩
    · refine ⟨back, by rw [Node.at?, hback]; rfl, hstands.title hcommented ?_ title ht⟩
      exact hcanonical node node.self_mem_nodes m (Node.mem_commented hstep hcommented)
    · rw [hnot] at hcommented
      cases hcommented
  | cons next place ih =>
    rw [Node.at?, Option.bind_eq_some_iff] at h
    obtain ⟨inner, hstep, hm⟩ := h
    rcases content_step path hstep with ⟨back, hback, ⟨path', hinside⟩, -⟩ | ⟨-, hnone⟩
    · obtain ⟨found, hfound, htitle⟩ := ih path' hm hplace fun n hn => hcanonical n (Node.mem_nodes_of_step? hstep hn)
      refine ⟨found, ?_, htitle⟩
      rw [Node.at?, hback, Option.bind_some, Node.at?, hinside]
      exact hfound
    · rw [Node.at?, hnone] at hm
      cases hm

theorem shape_node (path : Path) (object : Option Node) :
    (shape rename path object).node = content rename path (ownTree object) := by
  cases object with
  | none => rfl
  | some o =>
    obtain ⟨kind, constant, enumeration, annotations, loc⟩ := o
    cases kind <;> rfl

theorem ownTree_annotations (object : Option Node) : (ownTree object).annotations = {} := by
  unfold ownTree
  split <;> rfl

/-- The names that a record extends have no titles, and its own members are read back behind them. -/
theorem record_at (path : Path) {h : Heritage}
    (hinner : ∀ n ∈ (ownTree h.object).nodes, ∀ m ∈ n.kind.commented, m.annotations.Canonical) {step : Step}
    {place : List Step} {m : Node} (hat : h.tree.at? (step :: place) = some m) (hplace : Commented (step :: place))
    {title : String} (ht : title ∈ m.annotations.title) :
    ∃ back, (record rename path h).at? (step :: place) = some back ∧ back.annotations.title = some title := by
  unfold Heritage.tree at hat
  simp only [record, List.isEmpty_map, shape_node]
  by_cases hparents : h.parents.isEmpty
  · rw [if_pos hparents] at hat ⊢
    exact content_at path hat hplace hinner ht
  · rw [if_neg hparents] at hat ⊢
    rw [Node.at?, Option.bind_eq_some_iff] at hat
    obtain ⟨inner, hstep, hat⟩ := hat
    cases Node.holds_of_step? hstep with
    | @andMember _ i _ _ _ _ _ hi =>
      rcases Nat.lt_or_ge i h.parents.length with hlt | hge
      · rw [List.getElem?_append_left (by simpa using hlt), List.getElem?_map, Option.map_eq_some_iff] at hi
        obtain ⟨name, -, rfl⟩ := hi
        cases place with
        | nil =>
          cases hat
          cases ht
        | cons next place => cases hat
      · rw [List.getElem?_append_right (by simpa using hge), List.length_map] at hi
        obtain ⟨hzero, rfl⟩ : i - h.parents.length = 0 ∧ ownTree h.object = inner := by
          cases hk : i - h.parents.length with
          | zero => exact ⟨rfl, by simpa [hk] using hi⟩
          | succ k => simp [hk] at hi
        cases place with
        | nil =>
          cases hat
          rw [ownTree_annotations] at ht
          cases ht
        | cons next place =>
          obtain ⟨back, hback, htitle⟩ := content_at path hat hplace hinner ht
          refine ⟨back, ?_, htitle⟩
          rw [Node.at?, Node.of, Node.step?, List.getElem?_append_right (by simpa using hge), List.length_map, hzero]
          exact hback

/-- What stands in the own members of a record stands in the tree of its node. -/
theorem mem_nodes_ownTree {roots : List NamedType} {node : Node} {h : Heritage} (hh : record? roots node = some h)
    {n m : Node} (hn : n ∈ (ownTree h.object).nodes) (hm : m ∈ n.kind.commented) :
    ∃ n ∈ node.nodes, m ∈ n.kind.commented := by
  obtain ⟨hobject, -⟩ := record_mem hh
  rw [Node.nodes_eq] at hn
  unfold ownTree at hn
  split at hn
  · next named more c e a l heq =>
    have hsub := (hobject _ heq).2
    rcases List.mem_cons.mp hn with rfl | hn
    · exact ⟨_, hsub _ (Node.self_mem_nodes _), hm⟩
    · exact ⟨n, hsub n (by rw [Node.nodes_eq]; exact List.mem_cons_of_mem _ hn), hm⟩
  · rcases List.mem_cons.mp hn with rfl | hn
    · cases hm
    · cases hn

/-- At each place of a declared type whose comment is written, the title is read back. -/
theorem declared_at {roots : List NamedType} {named : NamedType} (htop : named.node.annotations.Canonical)
    (hinner : ∀ n ∈ named.node.nodes, ∀ m ∈ n.kind.commented, m.annotations.Canonical) {place : List Step} {m : Node}
    (h : (named.tree roots).at? place = some m) (hplace : Commented place) {title : String}
    (ht : title ∈ m.annotations.title) :
    ∃ back, (declared rename roots named).at? place = some back ∧ back.annotations.title = some title := by
  have hroot : (Path.title? [.declaration named.name]) = some named.name := by
    simp [Path.title?, Path.titleParts, joinTexts]
  cases place with
  | nil =>
    obtain rfl : named.tree roots = m := Option.some.inj h
    have htitle : title ∈ named.node.annotations.title := by
      unfold NamedType.tree at ht
      split at ht
      · exact ht
      · exact ht
    refine ⟨_, rfl, ?_⟩
    rw [declared, ← hroot]
    exact under_title htop htitle _ _
  | cons step place =>
    rw [declared]
    simp only [under, Node.at?_layer]
    unfold NamedType.tree at h
    cases hrec : record? roots named.node with
    | none =>
      simp only [hrec] at h ⊢
      rw [Node.at?_layer]
      exact content_at _ h hplace hinner ht
    | some record =>
      simp only [hrec, Node.at?_annotated] at h ⊢
      refine record_at _ (fun n hn m hm => ?_) h hplace ht
      obtain ⟨n', hn', hm'⟩ := mem_nodes_ownTree hrec hn hm
      exact hinner n' hn' m hm'

end ReadBack

/-- Titles survive: where a document is written as declarations and read back, each type, property and member of a union
or an intersection that has a title comes back with it, whether its comment says it or it follows from its place. -/
theorem Document.titles_read_back (d : Document) (options : WriteOptions) (source : String)
    (hsplit : options.namespaces = .ignore) (hnames : (d.types.map NamedType.name).Nodup)
    (hmaps : ∀ t ∈ d.types, ∀ n ∈ t.node.nodes, n.Distinct)
    (hsupported : ∀ t ∈ d.types, ∀ n ∈ t.node.nodes, n.kind ≠ .unsupported)
    (hrefs : ∀ t ∈ d.types, ∀ r ∈ t.node.refs, r ∉ ["Array", "Pick", "Omit", "Partial"])
    (htop : ∀ t ∈ d.types, t.node.annotations.Canonical)
    (hinner : ∀ t ∈ d.types, ∀ n ∈ t.node.nodes, ∀ m ∈ n.kind.commented, m.annotations.Canonical) :
    ∃ placed recovered, d.declarations options = .ok placed ∧
      SourceFile.convert ⟨placed.map Placed.statement⟩ source {} = {
        result := .ok { data := recovered, converted := d.types.map NamedType.name, notConverted := [] } } ∧
      List.Forall₂ (fun t t' => t.name = t'.name ∧ ∀ place node, (t.tree d.types).at? place = some node →
        Commented place → ∀ title ∈ node.annotations.title,
          ∃ back, t'.node.at? place = some back ∧ back.annotations.title = some title) d.types recovered.types := by
  obtain ⟨placed, hplaced⟩ := d.declarations_total options hsupported
  refine ⟨placed, d.recovered options.namespaces .ignore, hplaced, ?_, ?_⟩
  · rw [← nested_ignore hplaced hsplit]
    refine d.convert_nested options {} source hplaced hnames hmaps hrefs ?_ ?_
    · simp [hsplit, NamespaceSplit.apply_ignore, NamespacePolicy.flatName, NamespacePolicy.separator?]
    · simp [hsplit, NamespaceSplit.apply_ignore]
  · rw [Document.recovered, List.forall₂_map_right_iff, List.forall₂_same]
    intro t ht
    exact ⟨rfl, fun place node hat hplace title htitle =>
      ReadBack.declared_at (htop t ht) (hinner t ht) hat hplace htitle⟩

/-- Of a record behind the name that it extends, one property has the title of its place, and one has its own. -/
theorem Document.titles_read_back_record :
    let base : Node := .of (.object [] (.allowed false))
    let name : Node := { kind := .string, annotations := { title := some "Pet.name" } }
    let owner : Node := { kind := .string, annotations := { title := some "Keeper" } }
    let own : Node := .of (.object [("name", ⟨name, true⟩), ("owner", ⟨owner, false⟩)] (.allowed false))
    let d : Document := ⟨currentVersion, [⟨"Base", base⟩, ⟨"Pet", .of (.and [own, .of (.ref "Base")])⟩]⟩
    ∃ placed recovered base' pet, d.declarations {} = .ok placed ∧
      SourceFile.convert ⟨placed.map Placed.statement⟩ "" {} = {
        result := .ok { data := recovered, converted := ["Base", "Pet"], notConverted := [] } } ∧
      recovered.types = [base', ⟨"Pet", pet⟩] ∧
      (pet.at? [.member 1, .property "name"]).bind (·.annotations.title) = some "Pet.name" ∧
      (pet.at? [.member 1, .property "owner"]).bind (·.annotations.title) = some "Keeper" := by
  intro base name owner own d
  have htitle : ∀ s ∈ ["Pet.name", "Keeper"], Annotations.Canonical { title := some s } := by
    have hclean : ∀ s ∈ ["Pet.name", "Keeper"], Clean s ∧ '\n' ∉ s.toList := by decide +kernel
    exact fun s hs => { Annotations.canonical_empty with title := fun t ht => by cases ht; exact hclean s hs }
  obtain ⟨placed, recovered, hplaced, hconvert, htitles⟩ := d.titles_read_back {} "" rfl (by simp [d])
    (by simp [d, base, own, name, owner, Node.nodes, Kind.nodes, nodesOf, nodesOfProperties, Additional.nodes, Node.of,
      Node.distinct_iff, Kind.Distinct])
    (by simp [d, base, own, name, owner, Node.nodes, Kind.nodes, nodesOf, nodesOfProperties, Additional.nodes, Node.of])
    (by simp [d, base, own, name, owner, Node.refs, Node.nodes, Kind.nodes, nodesOf, nodesOfProperties,
      Additional.nodes, Node.of, Kind.ref?])
    (by simpa [d, base, Node.of] using Annotations.canonical_empty)
    (by simpa [d, base, own, name, owner, Node.nodes, Kind.nodes, nodesOf, nodesOfProperties, Additional.nodes, Node.of,
      Kind.commented] using ⟨Annotations.canonical_empty, htitle _ (by simp), htitle _ (by simp)⟩)
  obtain ⟨base', rest, -, hrest, htypes⟩ := List.forall₂_cons_left_iff.mp htitles
  obtain ⟨⟨pet, node⟩, rest, ⟨hname, hplaces⟩, hnil, rfl⟩ := List.forall₂_cons_left_iff.mp hrest
  obtain rfl := List.forall₂_nil_left_iff.mp hnil
  obtain rfl : "Pet" = pet := hname
  obtain ⟨back, hback, hfirst⟩ := hplaces [.member 1, .property "name"] name rfl (by decide) _ rfl
  obtain ⟨back', hback', hsecond⟩ := hplaces [.member 1, .property "owner"] owner rfl (by decide) _ rfl
  exact ⟨placed, recovered, base', node, hplaced, hconvert, htypes, by rw [hback]; exact hfirst,
    by rw [hback']; exact hsecond⟩

end TypeSchema
