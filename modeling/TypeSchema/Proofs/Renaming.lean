import TypeSchema.Proofs.Namespaces
import TypeSchema.Proofs.RoundTrip

namespace TypeSchema

mutual

/-- The tree with each reference under its new name. -/
def Node.renamed (f : String → String) : Node → Node
  | ⟨kind, constant, enumeration, annotations, loc⟩ => ⟨kind.renamed f, constant, enumeration, annotations, loc⟩

def Kind.renamed (f : String → String) : Kind → Kind
  | .or members => .or (renamedAll f members)
  | .and members => .and (renamedAll f members)
  | .array element => .array (element.renamed f)
  | .tuple elements additional minItems => .tuple (renamedAll f elements) (additional.renamed f) minItems
  | .object properties additional => .object (renamedIn f properties) (additional.renamed f)
  | .ref name => .ref (f name)
  | kind => kind

def Additional.renamed (f : String → String) : Additional → Additional
  | .allowed flag => .allowed flag
  | .node node => .node (node.renamed f)

def renamedAll (f : String → String) : List Node → List Node
  | [] => []
  | node :: rest => node.renamed f :: renamedAll f rest

def renamedIn (f : String → String) : List (String × Property) → List (String × Property)
  | [] => []
  | (name, ⟨node, required⟩) :: rest => (name, ⟨node.renamed f, required⟩) :: renamedIn f rest

end

/-- The document with the references of each type under the new names that they have there. -/
def Document.renamed (rename : String → String → String) (d : Document) : Document where
  version := d.version
  types := d.types.map fun t => ⟨t.name, t.node.renamed (rename t.name)⟩

section

variable (f : String → String)

theorem Node.renamed_eq (node : Node) : node.renamed f = { node with kind := node.kind.renamed f } := by
  cases node
  rw [renamed]

theorem Node.renamed_of (kind : Kind) : (Node.of kind).renamed f = .of (kind.renamed f) :=
  Node.renamed_eq f _

@[simp] theorem Node.renamed_layer (node : Node) (top : Annotations) :
    (node.layer top).renamed f = (node.renamed f).layer top := by
  rw [Node.renamed_eq, Node.renamed_eq]
  rfl

@[simp] theorem ReadBack.renamed_under (doc : Option String) (path : Path) (node : Node) :
    (under doc path node).renamed f = under doc path (node.renamed f) :=
  Node.renamed_layer f node _

@[simp] theorem Kind.isAny_renamed (kind : Kind) : (kind.renamed f).isAny = kind.isAny := by
  cases kind <;> rfl

@[simp] theorem Node.isPlainAny_renamed (node : Node) : (node.renamed f).isPlainAny = node.isPlainAny := by
  rw [Node.renamed_eq, Node.isPlainAny, Node.isPlainAny, Kind.isAny_renamed]

theorem Additional.renamed_ofRest (node : Node) :
    (Additional.ofRest (some node)).renamed f = .ofRest (some (node.renamed f)) := by
  have hkind : (node.renamed f).kind.isAny = node.kind.isAny := by
    rw [Node.renamed_eq, Kind.isAny_renamed]
  simp only [Additional.ofRest, hkind]
  split <;> rfl

theorem renamedAll_append (nodes more : List Node) :
    renamedAll f (nodes ++ more) = renamedAll f nodes ++ renamedAll f more := by
  induction nodes with
  | nil => rfl
  | cons node rest ih => simp only [List.cons_append, renamedAll, ih]

mutual

theorem Node.structureEq_renamed (a b : Node) (h : a.structureEq b) : (a.renamed f).structureEq (b.renamed f) := by
  match a with
  | ⟨kind, constant, enumeration, annotations, loc⟩ =>
    rw [Node.structureEq_iff] at h
    rw [Node.renamed_eq f b, Node.renamed, Node.structureEq_iff]
    exact ⟨Kind.structureEq_renamed kind b.kind h.1, h.2⟩

theorem Kind.structureEq_renamed (a b : Kind) (h : a.structureEq b) : (a.renamed f).structureEq (b.renamed f) := by
  match a with
  | .object ps more =>
    cases b <;> simp only [Kind.structureEq, Bool.and_eq_true, reduceCtorEq] at h
    simp only [Kind.renamed, Kind.structureEq, Bool.and_eq_true]
    exact ⟨structureEqProperties_renamed ps _ h.1, Additional.structureEq_renamed more _ h.2⟩
  | .array element =>
    cases b <;> simp only [Kind.structureEq, reduceCtorEq] at h
    simp only [Kind.renamed, Kind.structureEq]
    exact Node.structureEq_renamed element _ h
  | .tuple items more m =>
    cases b <;> simp only [Kind.structureEq, Bool.and_eq_true, reduceCtorEq] at h
    simp only [Kind.renamed, Kind.structureEq, Bool.and_eq_true]
    exact ⟨⟨structureEqNodes_renamed items _ h.1.1, Additional.structureEq_renamed more _ h.1.2⟩, h.2⟩
  | .or all | .and all =>
    cases b <;> simp only [Kind.structureEq, reduceCtorEq] at h
    simp only [Kind.renamed, Kind.structureEq]
    exact structureEqNodes_renamed all _ h
  | .ref name =>
    cases b <;> simp only [Kind.structureEq, beq_iff_eq, reduceCtorEq] at h
    simp only [Kind.renamed, Kind.structureEq, beq_iff_eq, h]
  | .any | .null | .string | .number | .integer | .boolean | .unsupported =>
    cases b <;> simp only [Kind.structureEq, Bool.false_eq_true] at h
    simp only [Kind.renamed, Kind.structureEq]

theorem Additional.structureEq_renamed (a b : Additional) (h : a.structureEq b) :
    (a.renamed f).structureEq (b.renamed f) := by
  match a with
  | .allowed flag =>
    cases b with
    | allowed other => exact h
    | node node => simpa [Additional.structureEq, Additional.renamed] using h
  | .node node =>
    cases b with
    | allowed flag => simpa [Additional.structureEq, Additional.renamed] using h
    | node other =>
      simp only [Additional.structureEq, Additional.renamed] at h ⊢
      exact Node.structureEq_renamed node other h

theorem structureEqNodes_renamed (as bs : List Node) (h : structureEqNodes as bs) :
    structureEqNodes (renamedAll f as) (renamedAll f bs) := by
  match as with
  | [] =>
    cases bs with
    | nil => simp only [renamedAll, structureEqNodes]
    | cons b bs => simp [structureEqNodes] at h
  | a :: as =>
    cases bs with
    | nil => simp [structureEqNodes] at h
    | cons b bs =>
      simp only [structureEqNodes, Bool.and_eq_true] at h
      simp only [renamedAll, structureEqNodes, Bool.and_eq_true]
      exact ⟨Node.structureEq_renamed a b h.1, structureEqNodes_renamed as bs h.2⟩

theorem structureEqProperties_renamed (ps qs : List (String × Property)) (h : structureEqProperties ps qs) :
    structureEqProperties (renamedIn f ps) (renamedIn f qs) := by
  match ps with
  | [] =>
    cases qs with
    | nil => simp only [renamedIn, structureEqProperties]
    | cons q qs => simp [structureEqProperties] at h
  | (name, ⟨node, required⟩) :: ps =>
    cases qs with
    | nil => simp [structureEqProperties] at h
    | cons q qs =>
      obtain ⟨other, otherNode, otherRequired⟩ := q
      simp only [structureEqProperties, Bool.and_eq_true] at h
      simp only [renamedIn, structureEqProperties, Bool.and_eq_true]
      exact ⟨⟨h.1.1, Node.structureEq_renamed node otherNode h.1.2⟩, structureEqProperties_renamed ps qs h.2⟩

end

end

namespace ReadBack

variable (f : String → String)

mutual

/-- A constant refers to nothing. -/
theorem renamed_constant (path : Path) (value : Json) : (constant path value).renamed f = constant path value := by
  match value with
  | .null | .bool _ | .number _ | .string _ => rfl
  | .array items =>
    rw [constant, Node.renamed_of, Kind.renamed, renamedAll_constants path.tail 0 items, Additional.renamed]
  | .object fields =>
    rw [constant, Node.renamed_of, Kind.renamed, renamedIn_fieldProperties path fields, Additional.renamed]

theorem renamedAll_constants (outer : Path) (i : Nat) (items : List Json) :
    renamedAll f (constants outer i items) = constants outer i items := by
  match items with
  | [] => rfl
  | value :: rest =>
    simp only [constants, renamedAll, renamed_under, renamed_constant _ value, renamedAll_constants outer (i + 1) rest]

theorem renamedIn_fieldProperties (path : Path) (fields : List (String × Json)) :
    renamedIn f (fieldProperties path fields) = fieldProperties path fields := by
  match fields with
  | [] => rfl
  | (name, value) :: rest =>
    simp only [fieldProperties, renamedIn, renamed_under, renamed_constant _ value,
      renamedIn_fieldProperties path rest]

end

theorem renamedAll_variants (path : Path) (values : List Json) :
    renamedAll f (variants path values) = variants path values := by
  induction values with
  | nil => rfl
  | cons value rest ih =>
    simp only [variants] at ih
    simp only [variants, List.map_cons, renamedAll, renamed_under, renamed_constant, ih]

mutual

/-- To rename while reading is to rename what is read. -/
theorem content_renamed (path : Path) (node : Node) : content f path node = (content id path node).renamed f := by
  match node with
  | ⟨.and all, c, e, a, l⟩ | ⟨.or all, c, e, a, l⟩ =>
    simp only [content, Node.renamed_of, Kind.renamed, members_renamed path all]
  | ⟨.null, c, e, a, l⟩ | ⟨.string, none, none, a, l⟩ | ⟨.number, none, none, a, l⟩ | ⟨.integer, none, none, a, l⟩
  | ⟨.boolean, none, none, a, l⟩ | ⟨.any, none, none, a, l⟩ | ⟨.unsupported, none, none, a, l⟩
  | ⟨.ref _, none, none, a, l⟩ =>
    simp only [content, Node.renamed_of, Kind.renamed, id_eq]
  | ⟨.object named more, none, none, a, l⟩ =>
    simp only [content, Node.renamed_of, Kind.renamed, properties_renamed path named, additional_renamed path more]
  | ⟨.array el, none, none, a, l⟩ =>
    simp only [content, Node.renamed_of, Kind.renamed, renamed_under, content_renamed _ el]
  | ⟨.tuple items more _, none, none, a, l⟩ =>
    simp only [content, Node.renamed_of, Kind.renamed, elements_renamed path.tail 0 items,
      rest_renamed path.tail items.length more]
  | ⟨.object _ _, some v, e, a, l⟩ | ⟨.array _, some v, e, a, l⟩ | ⟨.tuple _ _ _, some v, e, a, l⟩
  | ⟨.ref _, some v, e, a, l⟩ | ⟨.string, some v, e, a, l⟩ | ⟨.number, some v, e, a, l⟩
  | ⟨.integer, some v, e, a, l⟩ | ⟨.boolean, some v, e, a, l⟩ | ⟨.any, some v, e, a, l⟩
  | ⟨.unsupported, some v, e, a, l⟩ =>
    simp only [content, renamed_constant]
  | ⟨.object _ _, none, some vs, a, l⟩ | ⟨.array _, none, some vs, a, l⟩ | ⟨.tuple _ _ _, none, some vs, a, l⟩
  | ⟨.ref _, none, some vs, a, l⟩ | ⟨.string, none, some vs, a, l⟩ | ⟨.number, none, some vs, a, l⟩
  | ⟨.integer, none, some vs, a, l⟩ | ⟨.boolean, none, some vs, a, l⟩ | ⟨.any, none, some vs, a, l⟩
  | ⟨.unsupported, none, some vs, a, l⟩ =>
    simp only [content, Node.renamed_of, Kind.renamed, renamedAll_variants]

theorem members_renamed (path : Path) (nodes : List Node) :
    members f path nodes = renamedAll f (members id path nodes) := by
  match nodes with
  | [] => rfl
  | node :: rest =>
    simp only [members, renamedAll, renamed_under, content_renamed _ node, members_renamed path rest]

theorem elements_renamed (outer : Path) (i : Nat) (nodes : List Node) :
    elements f outer i nodes = renamedAll f (elements id outer i nodes) := by
  match nodes with
  | [] => rfl
  | node :: others =>
    simp only [elements, renamedAll, renamed_under, content_renamed _ node, elements_renamed outer (i + 1) others]

theorem rest_renamed (outer : Path) (i : Nat) (more : Additional) :
    rest f outer i more = (rest id outer i more).renamed f := by
  match more with
  | .allowed flag => rfl
  | .node node => simp only [rest, Additional.renamed_ofRest, renamed_under, content_renamed _ node]

theorem properties_renamed (path : Path) (named : List (String × Property)) :
    properties f path named = renamedIn f (properties id path named) := by
  match named with
  | [] => rfl
  | (name, ⟨node, required⟩) :: others =>
    simp only [properties, renamedIn, renamed_under, content_renamed _ node, properties_renamed path others]

theorem additional_renamed (path : Path) (more : Additional) :
    additional f path more = (additional id path more).renamed f := by
  match more with
  | .allowed false => rfl
  | .allowed true => rfl
  | .node node => simp only [additional, Additional.renamed, renamed_under, content_renamed _ node]

end

theorem shape_renamed (path : Path) (object : Option Node) :
    (shape f path object).node = (shape id path object).node.renamed f := by
  rcases object with _ | ⟨kind, c, e, a, l⟩
  · rfl
  · cases kind
    case object named more =>
      simp only [shape, Shape.node, Node.renamed_of, Kind.renamed, properties_renamed f path named,
        additional_renamed f path more]
    all_goals rfl

theorem parents_renamed (path : Path) (parents : List String) :
    parents.map (fun name => under none path (.of (.ref (f name)))) =
      renamedAll f (parents.map fun name => under none path (.of (.ref name))) := by
  induction parents with
  | nil => rfl
  | cons name rest ih => simp only [List.map_cons, renamedAll, renamed_under, Node.renamed_of, Kind.renamed, ih]

/-- What an interface extends is renamed with what its members refer to. -/
theorem record_renamed (path : Path) (record : Heritage) :
    ReadBack.record f path record = (ReadBack.record id path record).renamed f := by
  have hown := shape_renamed f path record.object
  have hparents := parents_renamed f (.other :: .other :: path) record.parents
  cases hp : record.parents with
  | nil => simpa only [ReadBack.record, hp, List.map_nil, List.isEmpty_nil, if_true] using hown
  | cons name rest =>
    rw [hp] at hparents
    simp only [ReadBack.record, hp, List.map_cons, List.isEmpty_cons, Bool.false_eq_true, if_false, id_eq]
      at hparents ⊢
    rw [Node.renamed_of, Kind.renamed, renamedAll_append, ← hparents, hown, renamedAll, renamedAll]

theorem declared_renamed (roots : List NamedType) (t : NamedType) :
    declared f roots t = (declared id roots t).renamed f := by
  unfold declared
  cases record? roots t.node with
  | some record => simp only [renamed_under, record_renamed f]
  | none => simp only [renamed_under, content_renamed f]

end ReadBack

/-- What a name stands for inside a scope: the name that it is joined to with the longest beginning of the scope for
which there is such a name; itself if there is none. -/
def Designates (names scope : List String) (name target : String) : Prop :=
  (∃ k ≤ scope.length, target = joinTexts "_" (scope.take k ++ [name]) ∧ target ∈ names ∧
    ∀ j ≤ scope.length, k < j → joinTexts "_" (scope.take j ++ [name]) ∉ names) ∨
  (target = name ∧ ∀ k ≤ scope.length, joinTexts "_" (scope.take k ++ [name]) ∉ names)

/-- The last of the first naturals that pass a test. -/
theorem find?_range_reverse {p : Nat → Bool} {n k : Nat} (h : (List.range n).reverse.find? p = some k) :
    p k ∧ k < n ∧ ∀ j < n, k < j → p j = false := by
  induction n with
  | zero => simp at h
  | succ n ih =>
    rw [List.range_succ, List.reverse_append, List.reverse_singleton, List.singleton_append, List.find?_cons] at h
    cases hn : p n with
    | true =>
      rw [hn] at h
      obtain rfl := Option.some.inj h
      exact ⟨hn, Nat.lt_succ_self _, fun j hj hk => by omega⟩
    | false =>
      rw [hn] at h
      obtain ⟨hk, hlt, hlast⟩ := ih h
      refine ⟨hk, by omega, fun j hj hkj => ?_⟩
      rcases Nat.lt_succ_iff_lt_or_eq.mp hj with hj | rfl
      · exact hlast j hj hkj
      · exact hn

/-- A name stands for one thing at most. -/
theorem Designates.unique {names scope : List String} {name target other : String}
    (h : Designates names scope name target) (h' : Designates names scope name other) : target = other := by
  rcases h with ⟨k, hk, rfl, hmem, hlast⟩ | ⟨rfl, hnone⟩
  · rcases h' with ⟨j, hj, rfl, hmem', hlast'⟩ | ⟨rfl, hnone⟩
    · rcases Nat.lt_trichotomy k j with hlt | rfl | hlt
      · exact absurd hmem' (hlast j hj hlt)
      · rfl
      · exact absurd hmem (hlast' k hk hlt)
    · exact absurd hmem (hnone k hk)
  · rcases h' with ⟨j, hj, rfl, hmem', -⟩ | ⟨rfl, -⟩
    · exact absurd hmem' (hnone j hj)
    · rfl

theorem NamespacePolicy.designates_target (names scope : List String) (name : String) :
    Designates names scope name (joinUnderscore.target names scope name) := by
  have htarget : joinUnderscore.target names scope name =
      (((List.range (scope.length + 1)).reverse.find? fun k => joinTexts "_" (scope.take k ++ [name]) ∈ names).map
        fun k => joinTexts "_" (scope.take k ++ [name])).getD name := by
    simp only [target, separator?, Table.enclosing, List.map_map, List.find?_map]
    rfl
  cases hfind : (List.range (scope.length + 1)).reverse.find? fun k => joinTexts "_" (scope.take k ++ [name]) ∈ names with
  | some k =>
    obtain ⟨hk, hlt, hlast⟩ := find?_range_reverse hfind
    rw [hfind] at htarget
    refine .inl ⟨k, by omega, htarget, ?_, fun j hj hkj => ?_⟩
    · rw [htarget]
      exact of_decide_eq_true hk
    · exact of_decide_eq_false (hlast j (by omega) hkj)
  | none =>
    rw [hfind] at htarget
    refine .inr ⟨htarget, fun k hk => ?_⟩
    rw [List.find?_eq_none] at hfind
    simpa using hfind k (by simpa using Nat.lt_succ_of_le hk)

/-- What is read back of a document whose annotations a comment keeps is its normal form, with each reference under the
name that it stands for in the namespaces of its type. -/
theorem Document.recovered_structureEq_renamed {d : Document} (hv : d.version = currentVersion)
    (split : NamespaceSplit) (policy : NamespacePolicy) (ht : ∀ t ∈ d.types, t.node.annotations.Recovers)
    (h : ∀ t ∈ d.types, ∀ n ∈ t.node.nodes, ∀ m ∈ n.kind.commented, m.annotations.Recovers) :
    (d.recovered split policy).structureEq
      (d.normal.renamed fun name => policy.target (d.types.map NamedType.name) (split.apply name).1) := by
  have htypes : ∀ t ∈ d.types,
      (ReadBack.declared (policy.target (d.types.map NamedType.name) (split.apply t.name).1) d.types t).structureEq
        ((t.normal d.types).node.renamed (policy.target (d.types.map NamedType.name) (split.apply t.name).1)) := by
    intro t hm
    rw [ReadBack.declared_renamed]
    exact Node.structureEq_renamed _ _ _ (ReadBack.declared_normal d.types t (ht t hm) (h t hm))
  simpa [structureEq, recovered, normal, renamed, hv, List.zip_map', NamedType.structureEq, NamedType.normal]
    using htypes

/-- A document with names that are made of segments is written into namespaces and read back with the names joined: every
type in its order and under its name, in normal form, and each reference under the name that it stands for in the
namespaces of its type. -/
theorem Document.namespaces_round_trip (d : Document) (options : WriteOptions) (source : String)
    (hversion : d.version = currentVersion) (hsplit : options.namespaces = .underscore)
    (hnames : (d.types.map NamedType.name).Nodup) (hsegmented : ∀ t ∈ d.types, Segmented t.name)
    (hmaps : ∀ t ∈ d.types, ∀ n ∈ t.node.nodes, n.Distinct)
    (hsupported : ∀ t ∈ d.types, ∀ n ∈ t.node.nodes, n.kind ≠ .unsupported)
    (hrefs : ∀ t ∈ d.types, ∀ r ∈ t.node.refs, r ∉ ["Array", "Pick", "Omit", "Partial"])
    (htop : ∀ t ∈ d.types, t.node.annotations.Canonical)
    (hinner : ∀ t ∈ d.types, ∀ n ∈ t.node.nodes, ∀ m ∈ n.kind.commented, m.annotations.Canonical) :
    let names := d.types.map NamedType.name
    ∃ placed back rename, d.declarations options = .ok placed ∧
      SourceFile.convert ⟨placed.map Placed.nested⟩ source { namespaces := .joinUnderscore } = {
        result := .ok { data := back, converted := names, notConverted := [] } } ∧
      (∀ t ∈ d.types, ∀ r, Designates names (NamespaceSplit.underscore.apply t.name).1 r (rename t.name r)) ∧
      back.structureEq (d.normal.renamed rename) := by
  intro names
  obtain ⟨placed, hplaced⟩ := d.declarations_total options hsupported
  have hconvert := d.convert_nested options { namespaces := .joinUnderscore } source hplaced hnames hmaps hrefs
    (by rw [hsplit]; exact fun t ht => (hsegmented t ht).flatName) (by intro h; cases h)
  rw [hsplit] at hconvert
  refine ⟨placed, _, fun name => NamespacePolicy.joinUnderscore.target names (NamespaceSplit.underscore.apply name).1,
    hplaced, hconvert, ?_, ?_⟩
  · exact fun t _ r => NamespacePolicy.designates_target names _ r
  · exact recovered_structureEq_renamed hversion _ _ (fun t ht => (htop t ht).recovers)
      fun t ht n hn m hm => (hinner t ht n hn m hm).recovers

/-- Inside `namespace Shop`, the name `Item` means `Shop_Item`, also where an interface extends it; the price is no type of
the document, and keeps its name. -/
theorem Document.namespaces_round_trip_shop :
    let item : Node := { kind := .integer, annotations := { description := some "What is sold." } }
    let d : Document := ⟨currentVersion, [
      ⟨"Item", .of (.object [] (.allowed false))⟩, ⟨"Shop_Item", item⟩, ⟨"Shop_Box", .of (.and [.of (.ref "Item")])⟩,
      ⟨"Shop_Box_Lid", .of (.array (.of (.or [.of (.ref "Item"), .of (.ref "Price")])))⟩]⟩
    ∃ placed back, d.declarations { namespaces := .underscore } = .ok placed ∧
      SourceFile.convert ⟨placed.map Placed.nested⟩ "" { namespaces := .joinUnderscore } = {
        result := .ok {
          data := back, converted := ["Item", "Shop_Item", "Shop_Box", "Shop_Box_Lid"], notConverted := [] } } ∧
      back.structureEq ⟨currentVersion, [
        ⟨"Item", .of (.object [] (.allowed false))⟩, ⟨"Shop_Item", { item with kind := .number }⟩,
        ⟨"Shop_Box", .of (.and [.of (.ref "Shop_Item"), .of (.object [] (.allowed false))])⟩,
        ⟨"Shop_Box_Lid", .of (.array (.of (.or [.of (.ref "Shop_Item"), .of (.ref "Price")])))⟩]⟩ := by
  intro item d
  have hsegmented : ∀ t ∈ d.types, Segmented t.name := by
    simp only [d, List.forall_mem_cons, List.not_mem_nil, false_implies, implies_true, and_true]
    exact ⟨⟨["Item"], by decide⟩, ⟨["Shop", "Item"], by decide⟩, ⟨["Shop", "Box"], by decide⟩,
      ⟨["Shop", "Box", "Lid"], by decide⟩⟩
  have hitem : item.annotations.Canonical := .described (by decide) (by decide)
  have hrefs : ∀ refs ∈ d.types.map fun t => t.node.refs, ∀ r ∈ refs, r ∉ ["Array", "Pick", "Omit", "Partial"] := by
    have hlist : (d.types.map fun t => t.node.refs) = [[], [], ["Item"], ["Item", "Price"]] := by decide +kernel
    rw [hlist]
    decide
  obtain ⟨placed, back, rename, hplaced, hconvert, hrename, hback⟩ :=
    d.namespaces_round_trip { namespaces := .underscore } "" rfl rfl (by simp [d]) hsegmented
      (by simp [d, item, Node.nodes, Kind.nodes, nodesOf, nodesOfProperties, Additional.nodes, Node.of,
        Node.distinct_iff, Kind.Distinct])
      (by simp [d, item, Node.nodes, Kind.nodes, nodesOf, nodesOfProperties, Additional.nodes, Node.of])
      (fun t ht => hrefs _ (List.mem_map_of_mem ht))
      (by simpa [d, hitem, Node.of] using Annotations.canonical_empty)
      (by simpa [d, item, Node.nodes, Kind.nodes, nodesOf, nodesOfProperties, Additional.nodes, Node.of, Kind.commented]
        using Annotations.canonical_empty)
  refine ⟨placed, back, hplaced, hconvert, ?_⟩
  have hbox : rename "Shop_Box" "Item" = "Shop_Item" := by
    refine (hrename ⟨"Shop_Box", _⟩ (by simp [d]; rfl) "Item").unique ?_
    exact .inl ⟨1, by decide +kernel⟩
  have hlid : rename "Shop_Box_Lid" "Item" = "Shop_Item" ∧ rename "Shop_Box_Lid" "Price" = "Price" := by
    have hmem : (⟨"Shop_Box_Lid", .of (.array (.of (.or [.of (.ref "Item"), .of (.ref "Price")])))⟩ : NamedType) ∈
        d.types := by simp [d]
    constructor
    · refine (hrename _ hmem "Item").unique ?_
      exact .inl ⟨1, by decide +kernel⟩
    · refine (hrename _ hmem "Price").unique ?_
      exact .inr (by decide +kernel)
  simpa [d, item, normal, NamedType.normal, record?, heritage?, namesObject, Kind.isObject, Heritage.normal, ownNormal,
    Document.renamed, Node.renamed, Kind.renamed, renamedAll, renamedIn, Additional.renamed, Node.normal,
    normalMembers, normalProperties, Additional.normal, Node.annotated, Node.of, hbox, hlid] using hback

end TypeSchema
