import TypeSchema.Proofs.Fields
import TypeSchema.Schema.Reading
import TypeSchema.Schema.Writing

namespace TypeSchema

open Json (depth depthItems depthFields)

/-- A node that has a form of its own in JSON: its objects have no name twice, and its constant and its default are no
`null`, which would count as absent. -/
structure Node.Storable (node : Node) : Prop extends node.Distinct where
  constant_not_null : ∀ v ∈ node.constant, v.isNull = false
  default_distinct : ∀ v ∈ node.annotations.defaultValue, v.Distinct
  default_not_null : ∀ v ∈ node.annotations.defaultValue, v.isNull = false

/-- A document that has a form of its own in JSON. Its version fits into thirty-two bits. -/
structure Document.Storable (d : Document) : Prop where
  version : d.version < Nat.pow 2 32
  nodes : ∀ t ∈ d.types, ∀ n ∈ t.node.nodes, n.Storable

/-- What is read of a list, item by item, is read of its items. -/
theorem exists_of_mem_mapM {α β : Type} {f : α → Option β} {items : List α} {found : List β}
    (h : items.mapM f = some found) : ∀ b ∈ found, ∃ a ∈ items, f a = some b := by
  induction items generalizing found with
  | nil =>
    obtain rfl := Option.some.inj h
    exact fun b hb => absurd hb List.not_mem_nil
  | cons a rest ih =>
    rw [List.mapM_cons] at h
    obtain ⟨first, hfirst, h⟩ := Option.bind_eq_some_iff.mp h
    obtain ⟨others, hothers, h⟩ := Option.bind_eq_some_iff.mp h
    obtain rfl := Option.some.inj h
    intro b hb
    rcases List.mem_cons.mp hb with rfl | hb
    · exact ⟨a, List.mem_cons_self, hfirst⟩
    · obtain ⟨a', ha', hread⟩ := ih hothers b hb
      exact ⟨a', List.mem_cons_of_mem _ ha', hread⟩

/-- A list is read as it was written if its items are. -/
theorem mapM_map_of_forall {α β : Type} {read : β → Option α} {write : α → β} {items : List α}
    (h : ∀ a ∈ items, read (write a) = some a) : (items.map write).mapM read = some items := by
  induction items with
  | nil => rfl
  | cons a rest ih =>
    obtain ⟨ha, hrest⟩ := List.forall_mem_cons.mp h
    rw [List.map_cons, List.mapM_cons, ha, ih hrest]
    rfl

@[simp] theorem asNat?_nat (n : Nat) : (Json.nat n).asNat? = some n := by
  simp [Json.nat, Json.int, Json.asNat?]

theorem OneOrMany.ofJson?_toJson (texts : OneOrMany) :
    texts.toJson.isNull = false ∧ ofJson? texts.toJson = some texts := by
  cases texts with
  | one text => exact ⟨rfl, rfl⟩
  | many texts =>
    refine ⟨rfl, ?_⟩
    have hread : (texts.map Json.string).mapM Json.asString? = some texts := mapM_map_of_forall fun _ _ => rfl
    simp only [toJson, Json.strings, ofJson?, hread, Option.map_some]

theorem Span.ofJson?_toJson (span : Span) : span.toJson.isNull = false ∧ ofJson? span.toJson = some span := by
  refine ⟨rfl, ?_⟩
  have hnames : (Entries.names [("start", Json.nat span.start), ("end", Json.nat span.stop)]).Nodup := by
    simp [Entries.names]
  rw [toJson, ofJson?, Json.required?_of_nodup hnames, Json.required?_of_nodup hnames]
  simp [Entries.get?]

/-- The names of the fields that tell the kind of a node. -/
def Kind.fieldNames : List String :=
  ["type", "properties", "additionalProperties", "elementType", "elementTypes", "additionalItems", "minItems", "or",
    "and", "ref"]

/-- The names of the other fields of a node. -/
def Node.fieldNames : List String :=
  ["const", "enum", "title", "description", "examples", "default", "see", "loc"]

/-- The fields of a node stand in a list, perhaps beside a name. -/
structure Stores (all fields : Entries Json) : Prop where
  nodup : all.names.Nodup
  found : ∀ name ≠ "name", all.get? name = fields.get? name

theorem Kind.names_fields (kind : Kind) : (Entries.names kind.fields).Sublist Kind.fieldNames := by
  cases kind <;> simp only [fields, Entries.names, List.map_cons, List.map_nil] <;> decide

theorem Node.names_fields (node : Node) :
    (Entries.names node.fields).Sublist (Kind.fieldNames ++ Node.fieldNames) := by
  obtain ⟨kind, c, e, a, l⟩ := node
  have hkind := kind.names_fields
  have hfield := fun key value => Json.names_field? key value
  simp only [Entries.names] at hkind hfield
  simp only [fields, Annotations.fields, Entries.names, List.map_append, List.append_assoc]
  exact hkind.append <| (hfield "const" _).append <| (hfield "enum" _).append <| (hfield "title" _).append <|
    (hfield "description" _).append <| (hfield "examples" _).append <| (hfield "default" _).append <|
    (hfield "see" _).append (hfield "loc" _)

/-- Each field of a node belongs to its kind or to what else it has. -/
theorem Node.get?_fields (node : Node) (name : String) :
    Entries.get? name node.fields = (Entries.get? name node.kind.fields).or
      ((if "const" = name then node.constant else none).or <|
      (if "enum" = name then node.enumeration.map Json.array else none).or <|
      (if "title" = name then node.annotations.title.map Json.string else none).or <|
      (if "description" = name then node.annotations.description.map Json.string else none).or <|
      (if "examples" = name then node.annotations.examples.map OneOrMany.toJson else none).or <|
      (if "default" = name then node.annotations.defaultValue else none).or <|
      (if "see" = name then node.annotations.see.map OneOrMany.toJson else none).or <|
      if "loc" = name then node.loc.map Span.toJson else none) := by
  obtain ⟨kind, c, e, a, l⟩ := node
  simp only [fields, Annotations.fields, Entries.get?_append, Json.get?_field?, Option.or_assoc]

theorem Kind.get?_fields_eq_none (kind : Kind) {name : String} (h : name ∉ Kind.fieldNames) :
    Entries.get? name kind.fields = none :=
  Entries.get?_eq_none fun hname => h (kind.names_fields.subset hname)

theorem Stores.self (node : Node) : Stores node.fields node.fields where
  nodup := node.names_fields.nodup (by decide)
  found _ _ := rfl

theorem Stores.named (name : String) (node : Node) : Stores (("name", .string name) :: node.fields) node.fields where
  nodup := by
    have hnew : "name" ∉ Kind.fieldNames ++ Node.fieldNames := by decide
    exact List.nodup_cons.mpr ⟨fun h => hnew (node.names_fields.subset h), (Stores.self node).nodup⟩
  found other h := by rw [Entries.get?, if_neg (Ne.symm h)]

theorem Stores.get?_kind {node : Node} {all : Entries Json} (h : Stores all node.fields) {name : String}
    (hname : name ∈ Kind.fieldNames) : all.get? name = Entries.get? name node.kind.fields := by
  simp only [Kind.fieldNames, List.mem_cons, List.not_mem_nil, or_false] at hname
  rcases hname with rfl | rfl | rfl | rfl | rfl | rfl | rfl | rfl | rfl | rfl <;>
    rw [h.found _ (by decide), node.get?_fields] <;> simp

theorem Stores.get?_other {node : Node} {all : Entries Json} (h : Stores all node.fields) {name : String}
    (hname : name ∈ Node.fieldNames) : all.get? name =
      ((if "const" = name then node.constant else none).or <|
      (if "enum" = name then node.enumeration.map Json.array else none).or <|
      (if "title" = name then node.annotations.title.map Json.string else none).or <|
      (if "description" = name then node.annotations.description.map Json.string else none).or <|
      (if "examples" = name then node.annotations.examples.map OneOrMany.toJson else none).or <|
      (if "default" = name then node.annotations.defaultValue else none).or <|
      (if "see" = name then node.annotations.see.map OneOrMany.toJson else none).or <|
      if "loc" = name then node.loc.map Span.toJson else none) := by
  have hkind : ∀ other ∈ Node.fieldNames, other ∉ Kind.fieldNames ∧ other ≠ "name" := by decide
  obtain ⟨hnot, hne⟩ := hkind name hname
  rw [h.found name hne, node.get?_fields, Kind.get?_fields_eq_none _ hnot, Option.none_or]

/-- A constant or a default is read with its names made distinct, which they are. -/
theorem map_distinct {value : Option Json} (hv : ∀ v ∈ value, v.Distinct) : value.map Json.distinct = value := by
  cases value with
  | none => rfl
  | some v => exact congrArg some (hv v rfl).eq

/-- Annotations are read as they were written. -/
theorem Stores.annotations {node : Node} {all : Entries Json} (h : Stores all node.fields) (hs : node.Storable) :
    Annotations.ofFields? all = some node.annotations := by
  have htitle : all.get? "title" = node.annotations.title.map Json.string := by
    rw [h.get?_other (by decide)]; simp
  have hdescription : all.get? "description" = node.annotations.description.map Json.string := by
    rw [h.get?_other (by decide)]; simp
  have hexamples : all.get? "examples" = node.annotations.examples.map OneOrMany.toJson := by
    rw [h.get?_other (by decide)]; simp
  have hdefault : all.get? "default" = node.annotations.defaultValue.map id := by
    rw [h.get?_other (by decide)]; simp
  have hsee : all.get? "see" = node.annotations.see.map OneOrMany.toJson := by
    rw [h.get?_other (by decide)]; simp
  unfold Annotations.ofFields?
  rw [Json.optional?_of_nodup h.nodup _ _ htitle fun _ _ => ⟨rfl, rfl⟩,
    Json.optional?_of_nodup h.nodup _ _ hdescription fun _ _ => ⟨rfl, rfl⟩,
    Json.optional?_of_nodup h.nodup _ _ hexamples fun texts _ => texts.ofJson?_toJson,
    Json.optional?_of_nodup h.nodup _ _ hdefault fun v hv => ⟨hs.default_not_null v hv, rfl⟩,
    Json.optional?_of_nodup h.nodup _ _ hsee fun texts _ => texts.ofJson?_toJson]
  simp only [Option.bind_eq_bind, Option.bind_some, map_distinct hs.default_distinct]

/-- A node is read from its fields, whatever its name is, if its kind is. -/
theorem Stores.ofFields? {node : Node} {all : Entries Json} (h : Stores all node.fields) (hs : node.Storable)
    {node? : Json → Option Node} (hkind : Kind.ofFields? node? node.kind.tag all = some node.kind) :
    Node.ofFields? node? all = some node := by
  have htype : all.get? "type" = some (.string node.kind.tag) := by
    rw [h.get?_kind (by decide)]
    cases node.kind <;> rfl
  have hconstant : all.get? "const" = node.constant.map id := by
    rw [h.get?_other (by decide)]; simp
  have henumeration : all.get? "enum" = node.enumeration.map Json.array := by
    rw [h.get?_other (by decide)]; simp
  have hloc : all.get? "loc" = node.loc.map Span.toJson := by
    rw [h.get?_other (by decide)]; simp
  have hitems : node.enumeration.map Json.distinctItems = node.enumeration := by
    cases he : node.enumeration with
    | none => rfl
    | some items => exact congrArg some (hs.enumeration items he).eq
  unfold Node.ofFields?
  rw [Json.required?_of_nodup h.nodup, htype,
    Json.optional?_of_nodup h.nodup _ _ hconstant fun v hv => ⟨hs.constant_not_null v hv, rfl⟩,
    Json.optional?_of_nodup h.nodup _ _ henumeration fun _ _ => ⟨rfl, rfl⟩,
    Json.optional?_of_nodup h.nodup _ _ hloc fun span _ => span.ofJson?_toJson, h.annotations hs]
  simp only [Option.bind_eq_bind, Option.bind_some, Kind.tagOfJson?, hkind, map_distinct hs.constant, hitems]
  cases node
  rfl

mutual

/-- A node is read from within a value that is deep enough. -/
theorem Node.ofJsonWithin?_fields (node : Node) (hs : ∀ n ∈ node.nodes, n.Storable) {limit : Nat}
    (hlimit : depthFields node.fields < limit) : Node.ofJsonWithin? limit (.object node.fields) = some node := by
  match node with
  | ⟨kind, c, e, a, l⟩ =>
    obtain ⟨limit, rfl⟩ : ∃ k, limit = k + 1 := ⟨limit - 1, by omega⟩
    have hnode := hs _ (Node.self_mem_nodes _)
    have hbelow : ∀ n ∈ kind.nodes, n.Storable := by
      intro n hn
      apply hs n
      rw [Node.nodes]
      exact List.mem_cons_of_mem _ hn
    have hdepth : depthFields kind.fields ≤ limit := by
      simp only [Node.fields, Json.depthFields_append] at hlimit
      omega
    have hstores := Stores.self ⟨kind, c, e, a, l⟩
    rw [Node.ofJsonWithin?]
    exact hstores.ofFields? hnode (kind.ofFields?_fields hbelow hnode.kind hstores.nodup (fun _ => hstores.get?_kind) hdepth)

/-- A kind is read from fields among which its own are found. -/
theorem Kind.ofFields?_fields (kind : Kind) (hs : ∀ n ∈ kind.nodes, n.Storable) (hk : kind.Distinct)
    {all : Entries Json} (hn : all.names.Nodup)
    (hfound : ∀ name ∈ Kind.fieldNames, all.get? name = Entries.get? name kind.fields) {limit : Nat}
    (hlimit : depthFields kind.fields ≤ limit) :
    Kind.ofFields? (Node.ofJsonWithin? limit) kind.tag all = some kind := by
  match kind with
  | .object properties more =>
    simp only [Kind.nodes, List.forall_mem_append] at hs
    simp only [Kind.fields, depthFields, depth] at hlimit
    have hproperties : all.get? "properties" = some (.object (propertyFields properties)) := hfound _ (by decide)
    have hmore : all.get? "additionalProperties" = some more.toJson := hfound _ (by decide)
    have hdepth : depthFields (propertyFields properties) ≤ limit := by omega
    have hdepthMore : depth more.toJson ≤ limit := by omega
    simp only [Kind.ofFields?, Kind.tag]
    rw [Json.orElse?_of_nodup hn, Json.orElse?_of_nodup hn, hproperties, hmore, Option.elim_some, Option.elim_some,
      propertiesOfJson?, mapM_propertyFields properties hs.1 hdepth, more.ofJson?_toJson hs.2 hdepthMore]
    simp only [Option.bind_eq_bind, Option.bind_some, Entries.distinct_of_nodup hk]
  | .array element =>
    simp only [Kind.fields, depthFields, depth] at hlimit
    have helement : all.get? "elementType" = some (.object element.fields) := hfound _ (by decide)
    have hdepth : depthFields element.fields < limit := by omega
    simp only [Kind.ofFields?, Kind.tag]
    rw [Json.required?_of_nodup hn, helement, Option.bind_some, element.ofJsonWithin?_fields hs hdepth]
    rfl
  | .tuple elements more minItems =>
    simp only [Kind.nodes, List.forall_mem_append] at hs
    simp only [Kind.fields, depthFields, depth] at hlimit
    have helements : all.get? "elementTypes" = some (.array (nodeItems elements)) := hfound _ (by decide)
    have hmore : all.get? "additionalItems" = some more.toJson := hfound _ (by decide)
    have hmin : all.get? "minItems" = some (.nat minItems) := hfound _ (by decide)
    have hdepth : depthItems (nodeItems elements) ≤ limit := by omega
    have hdepthMore : depth more.toJson ≤ limit := by omega
    simp only [Kind.ofFields?, Kind.tag]
    rw [Json.orElse?_of_nodup hn, Json.orElse?_of_nodup hn, Json.orElse?_of_nodup hn, helements, hmore, hmin,
      Option.elim_some, Option.elim_some, Option.elim_some, nodesOfJson?, mapM_nodeItems elements hs.1 hdepth,
      more.ofJson?_toJson hs.2 hdepthMore, asNat?_nat]
    rfl
  | .or members =>
    simp only [Kind.fields, depthFields, depth] at hlimit
    have hmembers : all.get? "or" = some (.array (nodeItems members)) := hfound _ (by decide)
    have hdepth : depthItems (nodeItems members) ≤ limit := by omega
    simp only [Kind.ofFields?, Kind.tag]
    rw [Json.required?_of_nodup hn, hmembers, Option.bind_some, nodesOfJson?, mapM_nodeItems members hs hdepth]
    rfl
  | .and members =>
    simp only [Kind.fields, depthFields, depth] at hlimit
    have hmembers : all.get? "and" = some (.array (nodeItems members)) := hfound _ (by decide)
    have hdepth : depthItems (nodeItems members) ≤ limit := by omega
    simp only [Kind.ofFields?, Kind.tag]
    rw [Json.required?_of_nodup hn, hmembers, Option.bind_some, nodesOfJson?, mapM_nodeItems members hs hdepth]
    rfl
  | .ref name =>
    have hname : all.get? "ref" = some (.string name) := hfound _ (by decide)
    simp only [Kind.ofFields?, Kind.tag]
    rw [Json.required?_of_nodup hn, hname]
    rfl
  | .any | .null | .string | .number | .integer | .boolean | .unsupported => rfl

theorem Additional.ofJson?_toJson (more : Additional) (hs : ∀ n ∈ more.nodes, n.Storable) {limit : Nat}
    (hlimit : depth more.toJson ≤ limit) : Additional.ofJson? (Node.ofJsonWithin? limit) more.toJson = some more := by
  match more with
  | .allowed flag => rfl
  | .node node =>
    simp only [Additional.toJson, depth] at hlimit
    have hdepth : depthFields node.fields < limit := by omega
    simp only [Additional.toJson, Additional.ofJson?, node.ofJsonWithin?_fields hs hdepth, Option.map_some]

theorem mapM_nodeItems (nodes : List Node) (hs : ∀ n ∈ nodesOf nodes, n.Storable) {limit : Nat}
    (hlimit : depthItems (nodeItems nodes) ≤ limit) :
    (nodeItems nodes).mapM (Node.ofJsonWithin? limit) = some nodes := by
  match nodes with
  | [] => rfl
  | node :: rest =>
    simp only [nodesOf, List.forall_mem_append] at hs
    simp only [nodeItems, depthItems, depth] at hlimit
    have hdepth : depthFields node.fields < limit := by omega
    have hdepthRest : depthItems (nodeItems rest) ≤ limit := by omega
    rw [nodeItems, List.mapM_cons, node.ofJsonWithin?_fields hs.1 hdepth, mapM_nodeItems rest hs.2 hdepthRest]
    rfl

theorem mapM_propertyFields (properties : List (String × Property)) (hs : ∀ n ∈ nodesOfProperties properties, n.Storable)
    {limit : Nat} (hlimit : depthFields (propertyFields properties) ≤ limit) :
    ((propertyFields properties).mapM fun (name, value) =>
      (Property.ofJson? (Node.ofJsonWithin? limit) value).map fun property => (name, property)) = some properties := by
  match properties with
  | [] => rfl
  | (name, ⟨node, required⟩) :: rest =>
    simp only [nodesOfProperties, List.forall_mem_append] at hs
    simp only [propertyFields, depthFields, depth] at hlimit
    have hdepth : depthFields node.fields < limit := by omega
    have hdepthRest : depthFields (propertyFields rest) ≤ limit := by omega
    have hnode := node.ofJsonWithin?_fields hs.1 hdepth
    have hproperty : Property.ofJson? (Node.ofJsonWithin? limit)
        (.object [("node", .object node.fields), ("required", .bool required)]) = some ⟨node, required⟩ := by
      have hnames : (Entries.names [("node", Json.object node.fields), ("required", Json.bool required)]).Nodup := by
        simp [Entries.names]
      rw [Property.ofJson?, Json.required?_of_nodup hnames, Json.required?_of_nodup hnames]
      simp [Entries.get?, hnode, Json.asBool?]
    rw [propertyFields, List.mapM_cons]
    dsimp only
    rw [hproperty, mapM_propertyFields rest hs.2 hdepthRest]
    rfl

end

/-- The name of a type stands first, and makes no difference to its node. -/
theorem NamedType.ofJson?_toJson (t : NamedType) (hs : ∀ n ∈ t.node.nodes, n.Storable) :
    NamedType.ofJson? t.toJson = some t := by
  obtain ⟨name, node⟩ := t
  have hstores := Stores.named name node
  have hnode := hs node node.self_mem_nodes
  have hbelow : ∀ n ∈ node.kind.nodes, n.Storable := by
    intro n hn
    apply hs n
    rw [node.nodes_eq]
    exact List.mem_cons_of_mem _ hn
  have hdepth : depthFields node.kind.fields ≤ depthFields (("name", .string name) :: node.fields) := by
    obtain ⟨kind, c, e, a, l⟩ := node
    simp only [depthFields, Node.fields, Json.depthFields_append]
    omega
  have hread : Node.ofJson? (.object (("name", .string name) :: node.fields)) = some node :=
    hstores.ofFields? hnode
      (node.kind.ofFields?_fields hbelow hnode.kind hstores.nodup (fun _ => hstores.get?_kind) hdepth)
  rw [toJson, ofJson?, Json.required?_of_nodup hstores.nodup]
  simp only [Entries.get?, if_true, hread, Option.bind_eq_bind, Option.bind_some, Json.asString?]

theorem Document.Storable.ofJson?_toJson {d : Document} (h : d.Storable) : ofJson? d.toJson = some d := by
  obtain ⟨version, types⟩ := d
  have hnames : (Entries.names [("version", Json.nat version), ("types", .array (types.map NamedType.toJson))]).Nodup := by
    simp [Entries.names]
  have hversion : versionOfJson? (.nat version) = some version := by
    rw [versionOfJson?, asNat?_nat, Option.filter_some, if_pos]
    exact decide_eq_true h.version
  have htypes : (types.map NamedType.toJson).mapM NamedType.ofJson? = some types :=
    mapM_map_of_forall fun t ht => t.ofJson?_toJson (h.nodes t ht)
  rw [toJson, ofJson?, Json.required?_of_nodup hnames, Json.required?_of_nodup hnames]
  simp [Entries.get?, hversion, typesOfJson?, htypes]

section

variable {node? : Json → Option Node} (hnode : ∀ {v node}, node? v = some node → ∀ n ∈ node.nodes, n.Storable)
include hnode

theorem Additional.storable_of_ofJson? {v : Json} {more : Additional} (h : Additional.ofJson? node? v = some more) :
    ∀ n ∈ more.nodes, n.Storable := by
  unfold Additional.ofJson? at h
  split at h
  · obtain rfl := Option.some.inj h
    exact fun n hn => absurd hn List.not_mem_nil
  · obtain ⟨node, hread, rfl⟩ := Option.map_eq_some_iff.mp h
    exact hnode hread

theorem Property.storable_of_ofJson? {v : Json} {property : Property} (h : Property.ofJson? node? v = some property) :
    ∀ n ∈ property.node.nodes, n.Storable := by
  unfold Property.ofJson? at h
  split at h
  · obtain ⟨node, hread, h⟩ := Option.bind_eq_some_iff.mp h
    obtain ⟨required, -, h⟩ := Option.bind_eq_some_iff.mp h
    obtain rfl := Option.some.inj h
    obtain ⟨value, hvalue⟩ := Json.of_required? hread
    exact hnode hvalue
  · obtain ⟨node, hread, h⟩ := Option.bind_eq_some_iff.mp h
    obtain ⟨required, -, h⟩ := Option.bind_eq_some_iff.mp h
    obtain rfl := Option.some.inj h
    exact hnode hread
  · cases h

/-- Of properties of one name, one is read. -/
theorem properties_storable_of_ofJson? {v : Json} {properties : List (String × Property)}
    (h : propertiesOfJson? node? v = some properties) :
    (properties.map Prod.fst).Nodup ∧ ∀ n ∈ nodesOfProperties properties, n.Storable := by
  unfold propertiesOfJson? at h
  split at h
  · obtain ⟨read, hread, h⟩ := Option.bind_eq_some_iff.mp h
    obtain rfl := Option.some.inj h
    refine ⟨Entries.nodup_distinct read, fun n hn => ?_⟩
    obtain ⟨p, hp, hmem⟩ := mem_nodesOfProperties.mp hn
    obtain ⟨field, -, hfield⟩ := exists_of_mem_mapM hread p (Entries.mem_of_mem_distinct hp)
    obtain ⟨property, hproperty, rfl⟩ := Option.map_eq_some_iff.mp hfield
    exact Property.storable_of_ofJson? hnode hproperty n hmem
  · cases h

theorem nodes_storable_of_ofJson? {v : Json} {nodes : List Node} (h : nodesOfJson? node? v = some nodes) :
    ∀ n ∈ nodesOf nodes, n.Storable := by
  unfold nodesOfJson? at h
  split at h
  · intro n hn
    obtain ⟨node, hmem, hbelow⟩ := mem_nodesOf.mp hn
    obtain ⟨value, -, hvalue⟩ := exists_of_mem_mapM h node hmem
    exact hnode hvalue n hbelow
  · cases h

/-- What else may be held is a node that was read, if it is a node at all. -/
theorem Additional.storable_of_orElse? {flag : Bool} {name : String} {fields : List (String × Json)} {more : Additional}
    (h : Json.orElse? (Additional.ofJson? node?) (.allowed flag) name fields = some more) :
    ∀ n ∈ more.nodes, n.Storable := by
  rcases Json.of_orElse? h with rfl | ⟨value, hvalue⟩
  · exact fun n hn => absurd hn List.not_mem_nil
  · exact Additional.storable_of_ofJson? hnode hvalue

theorem Kind.storable_of_ofFields? {tag : String} {fields : List (String × Json)} {kind : Kind}
    (h : Kind.ofFields? node? tag fields = some kind) : kind.Distinct ∧ ∀ n ∈ kind.nodes, n.Storable := by
  unfold Kind.ofFields? at h
  split at h
  case h_7 =>
    obtain ⟨properties, hproperties, h⟩ := Option.bind_eq_some_iff.mp h
    obtain ⟨more, hmore, h⟩ := Option.bind_eq_some_iff.mp h
    obtain rfl := Option.some.inj h
    have hnamed : (properties.map Prod.fst).Nodup ∧ ∀ n ∈ nodesOfProperties properties, n.Storable := by
      rcases Json.of_orElse? hproperties with rfl | ⟨value, hvalue⟩
      · exact ⟨.nil, fun n hn => absurd hn List.not_mem_nil⟩
      · exact properties_storable_of_ofJson? hnode hvalue
    exact ⟨hnamed.1, List.forall_mem_append.mpr ⟨hnamed.2, Additional.storable_of_orElse? hnode hmore⟩⟩
  case h_8 =>
    obtain ⟨element, helement, h⟩ := Option.bind_eq_some_iff.mp h
    obtain rfl := Option.some.inj h
    obtain ⟨value, hvalue⟩ := Json.of_required? helement
    exact ⟨trivial, hnode hvalue⟩
  case h_9 =>
    obtain ⟨elements, helements, h⟩ := Option.bind_eq_some_iff.mp h
    obtain ⟨more, hmore, h⟩ := Option.bind_eq_some_iff.mp h
    obtain ⟨minItems, -, h⟩ := Option.bind_eq_some_iff.mp h
    obtain rfl := Option.some.inj h
    have hall : ∀ n ∈ nodesOf elements, n.Storable := by
      rcases Json.of_orElse? helements with rfl | ⟨value, hvalue⟩
      · exact fun n hn => absurd hn List.not_mem_nil
      · exact nodes_storable_of_ofJson? hnode hvalue
    exact ⟨trivial, List.forall_mem_append.mpr ⟨hall, Additional.storable_of_orElse? hnode hmore⟩⟩
  case h_10 | h_11 =>
    obtain ⟨members, hmembers, h⟩ := Option.bind_eq_some_iff.mp h
    obtain rfl := Option.some.inj h
    obtain ⟨value, hvalue⟩ := Json.of_required? hmembers
    exact ⟨trivial, nodes_storable_of_ofJson? hnode hvalue⟩
  case h_12 =>
    obtain ⟨name, -, h⟩ := Option.bind_eq_some_iff.mp h
    obtain rfl := Option.some.inj h
    exact ⟨trivial, fun n hn => absurd hn List.not_mem_nil⟩
  all_goals
    obtain rfl := Option.some.inj h
    exact ⟨trivial, fun n hn => absurd hn List.not_mem_nil⟩

end

/-- A constant or a default that is read is no `null`, and no name is left twice in it. -/
theorem of_optional?_distinct {name : String} {fields : List (String × Json)} {value : Option Json}
    (h : Json.optional? some name fields = some value) :
    ∀ v ∈ value.map Json.distinct, v.Distinct ∧ v.isNull = false := by
  intro v hv
  obtain ⟨read, hread, rfl⟩ := Option.map_eq_some_iff.mp hv
  obtain rfl := hread
  obtain ⟨written, hnull, hwritten⟩ := Json.of_optional? h
  obtain rfl := Option.some.inj hwritten
  exact ⟨Json.distinct_distinct _, by rw [Json.isNull_distinct, hnull]⟩

theorem Annotations.default_of_ofFields? {fields : List (String × Json)} {a : Annotations}
    (h : Annotations.ofFields? fields = some a) : ∀ v ∈ a.defaultValue, v.Distinct ∧ v.isNull = false := by
  obtain ⟨title, -, h⟩ := Option.bind_eq_some_iff.mp h
  obtain ⟨description, -, h⟩ := Option.bind_eq_some_iff.mp h
  obtain ⟨examples, -, h⟩ := Option.bind_eq_some_iff.mp h
  obtain ⟨defaultValue, hdefault, h⟩ := Option.bind_eq_some_iff.mp h
  obtain ⟨see, -, h⟩ := Option.bind_eq_some_iff.mp h
  obtain rfl := Option.some.inj h
  exact of_optional?_distinct hdefault

/-- A node that is read can be written, if those below it can. -/
theorem Node.storable_of_ofFields? {node? : Json → Option Node}
    (hnode : ∀ {v node}, node? v = some node → ∀ n ∈ node.nodes, n.Storable) {fields : List (String × Json)} {node : Node}
    (h : Node.ofFields? node? fields = some node) : ∀ n ∈ node.nodes, n.Storable := by
  obtain ⟨tag, -, h⟩ := Option.bind_eq_some_iff.mp h
  obtain ⟨kind, hkind, h⟩ := Option.bind_eq_some_iff.mp h
  obtain ⟨constant, hconstant, h⟩ := Option.bind_eq_some_iff.mp h
  obtain ⟨enumeration, -, h⟩ := Option.bind_eq_some_iff.mp h
  obtain ⟨annotations, hannotations, h⟩ := Option.bind_eq_some_iff.mp h
  obtain ⟨loc, -, h⟩ := Option.bind_eq_some_iff.mp h
  obtain rfl := Option.some.inj h
  obtain ⟨hdistinct, hbelow⟩ := Kind.storable_of_ofFields? hnode hkind
  have hfixed := of_optional?_distinct hconstant
  have hdefault := Annotations.default_of_ofFields? hannotations
  have hitems : ∀ items ∈ enumeration.map Json.distinctItems, Json.DistinctItems items := by
    intro items hitems
    obtain ⟨read, -, rfl⟩ := Option.map_eq_some_iff.mp hitems
    exact Json.distinct_distinctItems read
  intro n hn
  rw [Node.nodes] at hn
  rcases List.mem_cons.mp hn with rfl | hn
  · exact ⟨⟨hdistinct, fun v hv => (hfixed v hv).1, hitems⟩, fun v hv => (hfixed v hv).2,
      fun v hv => (hdefault v hv).1, fun v hv => (hdefault v hv).2⟩
  · exact hbelow n hn

theorem Node.storable_of_ofJsonWithin? {limit : Nat} {v : Json} {node : Node}
    (h : Node.ofJsonWithin? limit v = some node) : ∀ n ∈ node.nodes, n.Storable := by
  induction limit generalizing v node with
  | zero => cases h
  | succ limit ih =>
    cases v with
    | object fields => exact Node.storable_of_ofFields? ih h
    | _ => cases h

theorem NamedType.storable_of_ofJson? {v : Json} {t : NamedType} (h : NamedType.ofJson? v = some t) :
    ∀ n ∈ t.node.nodes, n.Storable := by
  unfold NamedType.ofJson? at h
  split at h
  · obtain ⟨name, -, h⟩ := Option.bind_eq_some_iff.mp h
    obtain ⟨node, hnode, h⟩ := Option.bind_eq_some_iff.mp h
    obtain rfl := Option.some.inj h
    exact Node.storable_of_ofJsonWithin? hnode
  · cases h

namespace Document

theorem version_of_ofJson? {v : Json} {version : Nat} (h : versionOfJson? v = some version) : version < Nat.pow 2 32 := by
  obtain ⟨-, hversion⟩ := Option.filter_eq_some_iff.mp h
  exact of_decide_eq_true hversion

theorem types_storable_of_ofJson? {v : Json} {types : List NamedType} (h : typesOfJson? v = some types) :
    ∀ t ∈ types, ∀ n ∈ t.node.nodes, n.Storable := by
  unfold typesOfJson? at h
  split at h
  · intro t ht
    obtain ⟨item, -, hitem⟩ := exists_of_mem_mapM h t ht
    exact NamedType.storable_of_ofJson? hitem
  · cases h

/-- A document that is read can be written. -/
theorem storable_of_ofJson? {v : Json} {d : Document} (h : ofJson? v = some d) : d.Storable := by
  unfold ofJson? at h
  split at h
  · obtain ⟨version, hversion, h⟩ := Option.bind_eq_some_iff.mp h
    obtain ⟨types, htypes, h⟩ := Option.bind_eq_some_iff.mp h
    obtain rfl := Option.some.inj h
    obtain ⟨value, hvalue⟩ := Json.of_required? hversion
    obtain ⟨items, hitems⟩ := Json.of_required? htypes
    exact ⟨version_of_ofJson? hvalue, types_storable_of_ofJson? hitems⟩
  · obtain ⟨version, hversion, h⟩ := Option.bind_eq_some_iff.mp h
    obtain ⟨types, htypes, h⟩ := Option.bind_eq_some_iff.mp h
    obtain rfl := Option.some.inj h
    exact ⟨version_of_ofJson? hversion, types_storable_of_ofJson? htypes⟩
  · cases h

/-- Every document that is read from some JSON value, in whatever form, is read again from the value it is written to,
with all names in their order, and is written to the same value again. So is every document made otherwise whose version
fits into thirty-two bits, whose maps have no name twice, and whose constants and defaults are not `null`; and no other
document is read from its own form, nor from any. -/
theorem stored_round_trip (d : Document) :
    (∀ v, ofJson? v = some d →
      ofJson? d.toJson = some d ∧ ∀ d', ofJson? d.toJson = some d' → d'.toJson = d.toJson) ∧
    (d.Storable → ofJson? d.toJson = some d ∧ ∀ d', ofJson? d.toJson = some d' → d'.toJson = d.toJson) ∧
    (¬d.Storable → ∀ v, ofJson? v ≠ some d) := by
  have hwritten : d.Storable →
      ofJson? d.toJson = some d ∧ ∀ d', ofJson? d.toJson = some d' → d'.toJson = d.toJson := by
    intro h
    refine ⟨h.ofJson?_toJson, fun d' hd' => ?_⟩
    rw [Option.some.inj (h.ofJson?_toJson.symm.trans hd')]
  exact ⟨fun v hv => hwritten (storable_of_ofJson? hv), hwritten, fun h v hv => h (storable_of_ofJson? hv)⟩

/-- A document as a list, with tags given by name, by number and without meaning, a property as a list and one that is
written twice, fields that mean nothing, fields that are `null`, and objects in a constant and in a default. -/
theorem stored_round_trip_shelf :
    let written : Json := .array [.nat 1, .array [
      .object [
        ("see", .strings ["shelf", "board"]),
        ("type", .nat 6),
        ("name", .string "Shelf"),
        ("properties", .object [
          ("size", .array [.object [("type", .string "integer"), ("const", .null), ("unit", .string "cm")], .bool true]),
          ("books", .object [("node", .object [("type", .string "any")]), ("required", .bool true)]),
          ("books", .object [("required", .bool false), ("node", .object [
            ("type", .string "tuple"), ("title", .null), ("additionalItems", .object [("type", .string "novel")])])])]),
        ("default", .object [("books", .null), ("size", .nat 3), ("books", .array [])])],
      .object [("name", .string "Label"), ("type", .nat 2), ("enum", .array [.null, .string "A"]),
        ("const", .object [("b", .nat 1), ("a", .nat 2), ("b", .bool false)]),
        ("loc", .array [.nat 3, .nat 9])]]]
    let novel : Node := .of .unsupported
    let shelf : Node := {
      kind := .object [
        ("size", ⟨.of .integer, true⟩),
        ("books", ⟨.of (.tuple [] (.node novel) 0), false⟩)] (.allowed false)
      annotations := {
        defaultValue := some (.object [("books", .array []), ("size", .nat 3)])
        see := some (.many ["shelf", "board"]) } }
    let label : Node := {
      kind := .string
      constant := some (.object [("b", .bool false), ("a", .nat 2)])
      enumeration := some [.null, .string "A"]
      loc := some ⟨3, 9⟩ }
    let d : Document := ⟨1, [⟨"Shelf", shelf⟩, ⟨"Label", label⟩]⟩
    ofJson? written = some d ∧ ofJson? d.toJson = some d := by
  intro written novel shelf label d
  have hread : ofJson? written = some d := by rfl
  exact ⟨hread, ((stored_round_trip d).1 written hread).1⟩

end Document

end TypeSchema
