import TypeSchema.Proofs.FileRecovery
import TypeSchema.Proofs.Lines
import TypeSchema.Proofs.Normal
import TypeSchema.Proofs.Writable

namespace TypeSchema

@[simp] theorem Node.refs_annotated (node : Node) (annotations : Annotations) :
    (node.annotated annotations).refs = node.refs := by
  rw [Node.refs_eq, Node.refs_eq]
  rfl

@[simp] theorem ReadBack.refs_under (doc : Option String) (path : Path) (node : Node) :
    (under doc path node).refs = node.refs :=
  Node.refs_layer node _

mutual

theorem Json.refs_normal (value : Json) : value.normal.refs = [] := by
  match value with
  | .null | .bool _ | .number _ | .string _ => rfl
  | .array items => simp [Json.normal, Node.refs_eq, Node.of, refsOf_normalItems items]
  | .object fields => simp [Json.normal, Node.refs_eq, Node.of, refsOf_normalFields fields]

theorem refsOf_normalItems (items : List Json) : refsOf (normalItems items) = [] := by
  match items with
  | [] => simp [normalItems]
  | item :: rest => simp [normalItems, item.refs_normal, refsOf_normalItems rest]

theorem refsOf_normalFields (fields : List (String × Json)) : refsOfProperties (normalFields fields) = [] := by
  match fields with
  | [] => simp [normalFields]
  | (_, value) :: rest => simp [normalFields, value.refs_normal, refsOf_normalFields rest]

end

namespace ReadBack

mutual

theorem refs_constant (path : Path) (value : Json) : (constant path value).refs = [] := by
  match value with
  | .null | .bool _ | .number _ | .string _ => rfl
  | .array items => simp [constant, Node.refs_eq, Node.of, refsOf_constants path.tail 0 items]
  | .object fields => simp [constant, Node.refs_eq, Node.of, refsOf_fields path fields]

theorem refsOf_constants (outer : Path) (i : Nat) (items : List Json) : refsOf (constants outer i items) = [] := by
  match items with
  | [] => simp [constants]
  | item :: rest => simp [constants, refs_constant _ item, refsOf_constants outer (i + 1) rest]

theorem refsOf_fields (path : Path) (fields : List (String × Json)) :
    refsOfProperties (fieldProperties path fields) = [] := by
  match fields with
  | [] => simp [fieldProperties]
  | (name, value) :: rest => simp [fieldProperties, refs_constant _ value, refsOf_fields path rest]

end

theorem refsOf_variants (path : Path) (values : List Json) : refsOf (variants path values) = [] := by
  induction values with
  | nil => simp [variants]
  | cons value rest ih =>
    simp only [variants] at ih
    simp [variants, refs_constant, ih]

variable (rename : String → String)

mutual

theorem refs_content (path : Path) (node : Node) : (content rename path node).refs = node.normal.refs.map rename := by
  match node with
  | ⟨.and all, c, e, a, l⟩ =>
    simp [content, Node.normal, Node.refs_eq, Node.of, refsOf_members path all]
  | ⟨.or all, c, e, a, l⟩ =>
    simp [content, Node.normal, Node.refs_eq, Node.of, refsOf_members path all]
  | ⟨.null, c, e, a, l⟩ | ⟨.string, none, none, a, l⟩ | ⟨.number, none, none, a, l⟩ | ⟨.integer, none, none, a, l⟩
  | ⟨.boolean, none, none, a, l⟩ | ⟨.any, none, none, a, l⟩ | ⟨.unsupported, none, none, a, l⟩
  | ⟨.ref _, none, none, a, l⟩ =>
    simp [content, Node.normal, Node.refs_eq, Node.of]
  | ⟨.object named more, none, none, a, l⟩ =>
    simp [content, Node.normal, Node.refs_eq, Node.of, refsOf_properties path named, refs_additional path more]
  | ⟨.array el, none, none, a, l⟩ =>
    have := refs_content (.ofNode el :: path) el
    rw [content, Node.normal, Node.refs_eq, Node.refs_eq]
    simpa [Node.of] using this
  | ⟨.tuple items more _, none, none, a, l⟩ =>
    simp [content, Node.normal, Node.refs_eq, Node.of, refsOf_elements path.tail 0 items,
      refs_rest path.tail items.length more]
  | ⟨.object _ _, some v, e, a, l⟩ | ⟨.array _, some v, e, a, l⟩ | ⟨.tuple _ _ _, some v, e, a, l⟩
  | ⟨.ref _, some v, e, a, l⟩ | ⟨.string, some v, e, a, l⟩ | ⟨.number, some v, e, a, l⟩
  | ⟨.integer, some v, e, a, l⟩ | ⟨.boolean, some v, e, a, l⟩ | ⟨.any, some v, e, a, l⟩
  | ⟨.unsupported, some v, e, a, l⟩ =>
    simp only [content, Node.normal]
    rw [refs_constant, v.refs_normal]
    rfl
  | ⟨.object _ _, none, some vs, a, l⟩ | ⟨.array _, none, some vs, a, l⟩ | ⟨.tuple _ _ _, none, some vs, a, l⟩
  | ⟨.ref _, none, some vs, a, l⟩ | ⟨.string, none, some vs, a, l⟩ | ⟨.number, none, some vs, a, l⟩
  | ⟨.integer, none, some vs, a, l⟩ | ⟨.boolean, none, some vs, a, l⟩ | ⟨.any, none, some vs, a, l⟩
  | ⟨.unsupported, none, some vs, a, l⟩ =>
    simp [content, Node.normal, Node.refs_eq, Node.of, refsOf_variants, refsOf_normalItems]

theorem refsOf_members (path : Path) (nodes : List Node) :
    refsOf (members rename path nodes) = (refsOf (normalMembers nodes)).map rename := by
  match nodes with
  | [] => simp [members, normalMembers]
  | node :: rest =>
    simp [members, normalMembers, refs_content _ node, refsOf_members path rest]

theorem refsOf_elements (outer : Path) (i : Nat) (nodes : List Node) :
    refsOf (elements rename outer i nodes) = (refsOf (normalElements nodes)).map rename := by
  match nodes with
  | [] => simp [elements, normalElements]
  | node :: others =>
    simp [elements, normalElements, refs_content _ node, refsOf_elements outer (i + 1) others]

theorem refs_rest (outer : Path) (i : Nat) (more : Additional) :
    (rest rename outer i more).refs = more.normal.refs.map rename := by
  match more with
  | .allowed flag => simp [rest, Additional.normal]
  | .node node =>
    have := refs_content (.ofNode node :: .array :: .rest :: .tuple (some i) :: outer) node
    simpa [rest, Additional.normal] using this

theorem refsOf_properties (path : Path) (named : List (String × Property)) :
    refsOfProperties (properties rename path named) = (refsOfProperties (normalProperties named)).map rename := by
  match named with
  | [] => simp [properties, normalProperties]
  | (name, ⟨node, required⟩) :: others =>
    simp [properties, normalProperties, refs_content _ node, refsOf_properties path others]

theorem refs_additional (path : Path) (more : Additional) :
    (additional rename path more).refs = more.normal.refs.map rename := by
  match more with
  | .allowed false => simp [additional, Additional.normal]
  | .allowed true =>
    simp [additional, Additional.normal]
    rfl
  | .node node => simp [additional, Additional.normal, refs_content _ node]

end

theorem refs_shape (path : Path) (object : Option Node) :
    (shape rename path object).node.refs = (ownNormal object).refs.map rename := by
  have hnone : (Shape.node {}).refs = (Node.of (.object [] (.allowed false))).refs.map rename := by
    simp [Shape.node, Node.refs_eq, Node.of]
  rcases object with _ | ⟨kind, c, e, a, l⟩
  · exact hnone
  · cases kind
    case object named more =>
      simp [shape, Shape.node, ownNormal, Node.refs_eq, Node.of, refsOf_properties, refs_additional]
    all_goals exact hnone

theorem refs_record (path : Path) (record : Heritage) :
    (ReadBack.record rename path record).refs = record.normal.refs.map rename := by
  have hown := refs_shape rename path record.object
  have hparents : ∀ parents : List String,
      refsOf (parents.map fun name => under none (.other :: .other :: path) (.of (.ref (rename name)))) =
        (refsOf (parents.map fun name => Node.of (.ref name))).map rename := by
    intro parents
    induction parents with
    | nil => simp
    | cons name rest ih =>
      simp only [List.map_cons, refsOf_cons, refs_under, ih, List.map_append]
      rfl
  simp only [ReadBack.record, Heritage.normal]
  cases hp : record.parents with
  | nil => exact hown
  | cons name rest =>
    have := hparents (name :: rest)
    rw [Node.refs_eq, Node.refs_eq]
    simp only [List.isEmpty_map, List.isEmpty_cons, Bool.false_eq_true, if_false, Node.of] at this ⊢
    simp only [refsOf_append, this, refsOf_cons, hown, refsOf_nil, List.append_nil, List.map_append]

/-- What is read back refers to what the normal form refers to, under the new names. -/
theorem refs_declared (roots : List NamedType) (t : NamedType) :
    (declared rename roots t).refs = (t.normal roots).node.refs.map rename := by
  unfold declared NamedType.normal
  cases record? roots t.node with
  | some record => simp [refs_record]
  | none => simp [refs_content]

end ReadBack

/-- A name is captured inside a scope: some namespace around declares what would be called that. -/
def Captured (names scope : List String) (name : String) : Prop :=
  ∃ outer, outer ≠ [] ∧ outer <+: scope ∧ joinTexts "_" (outer ++ [name]) ∈ names

theorem joinTexts_ne {outer : List String} (h : outer ≠ []) (name : String) :
    joinTexts "_" (outer ++ [name]) ≠ name := by
  intro he
  have hlen := congrArg (fun s : String => s.toList.length) he
  rw [joinTexts] at hlen
  simp only [String.toList_ofList, List.map_append, List.map_cons, List.map_nil] at hlen
  rw [joinWith_append _ (by simpa using h) (by simp)] at hlen
  simp only [List.length_append, joinWith_singleton, String.length_toList] at hlen
  have : "_".length = 1 := rfl
  omega

theorem Table.enclosing_eq (scope : List String) :
    enclosing scope = ((List.range scope.length).reverse.map fun n => scope.take (n + 1)) ++ [[]] := by
  rw [enclosing, List.range_succ_eq_map, List.reverse_cons, List.map_append, ← List.map_reverse, List.map_map]
  rfl

theorem mem_enclosing {scope outer : List String} (h : outer ≠ []) :
    outer ∈ ((List.range scope.length).reverse.map fun n => scope.take (n + 1)) ↔ outer <+: scope := by
  simp only [List.mem_map, List.mem_reverse, List.mem_range]
  constructor
  · rintro ⟨n, -, rfl⟩
    exact List.take_prefix _ _
  · intro hp
    have hlen := List.length_pos_iff.mpr h
    refine ⟨outer.length - 1, ?_, ?_⟩
    · have := hp.length_le
      omega
    · rw [Nat.sub_add_cancel hlen]
      exact (List.prefix_iff_eq_take.mp hp).symm

/-- A name that no namespace around captures stands for itself, and no other does. -/
theorem NamespacePolicy.target_eq_self {names scope : List String} {name : String} :
    joinUnderscore.target names scope name = name ↔ ¬Captured names scope name := by
  simp only [target, separator?, Table.enclosing_eq, List.map_append, List.find?_append, List.map_singleton,
    List.nil_append]
  generalize hinner : ((List.range scope.length).reverse.map fun n => scope.take (n + 1)) = inner
  have hmem : ∀ outer, outer ≠ [] → (outer ∈ inner ↔ outer <+: scope) := fun outer h => hinner ▸ mem_enclosing h
  have hne : ∀ outer ∈ inner, outer ≠ [] := by
    rw [← hinner]
    simp only [List.mem_map, List.mem_reverse, List.mem_range]
    rintro _ ⟨n, hn, rfl⟩ he
    simp only [List.take_eq_nil_iff] at he
    rcases he with he | he
    · omega
    · simp [he] at hn
  cases hf : (inner.map fun outer => joinTexts "_" (outer ++ [name])).find? (· ∈ names) with
  | some found =>
    have hin := List.mem_of_find?_eq_some hf
    obtain ⟨outer, ho, rfl⟩ := List.mem_map.mp hin
    have hnames : joinTexts "_" (outer ++ [name]) ∈ names := by simpa using List.find?_some hf
    simp only [Option.some_or, Option.getD_some]
    refine ⟨fun he => absurd he (joinTexts_ne (hne outer ho) name), fun hc => absurd ?_ hc⟩
    exact ⟨outer, hne outer ho, (hmem outer (hne outer ho)).mp ho, hnames⟩
  | none =>
    have hjoin : joinTexts "_" [name] = name := by simp [joinTexts]
    have hself : ((none : Option String).or ([joinTexts "_" [name]].find? (· ∈ names))).getD name = name := by
      rw [hjoin, Option.none_or]
      by_cases hn : name ∈ names <;> simp [hn]
    refine ⟨fun _ => ?_, fun _ => hself⟩
    rintro ⟨outer, ho, hp, hn⟩
    rw [List.find?_eq_none] at hf
    exact hf _ (List.mem_map_of_mem ((hmem outer ho).mpr hp)) (by simpa using hn)

/-- A name that is made of segments with `_` between them. -/
def Segmented (name : String) : Prop :=
  ∃ segments : List String, segments ≠ [] ∧ (∀ s ∈ segments, s ≠ "" ∧ '_' ∉ s.toList) ∧ name = joinTexts "_" segments

theorem joinWith_eq_intercalate (separator : List Char) (ls : List (List Char)) :
    joinWith separator ls = separator.intercalate ls := by
  induction ls with
  | nil => rfl
  | cons l ls ih =>
    by_cases h : ls = []
    · simp [h]
    · rw [joinWith_cons _ _ h, ih, List.intercalate_cons_of_ne_nil h]

/-- What is joined is split again at a separator that no part holds. -/
theorem splitOn_joinTexts {separator : String} {c : Char} (hseparator : separator.toList = [c]) {names : List String}
    (hne : names ≠ []) (h : ∀ name ∈ names, c ∉ name.toList) :
    (joinTexts separator names).toList.splitOn c = names.map String.toList := by
  rw [joinTexts, String.toList_ofList, joinWith_eq_intercalate, hseparator]
  refine List.splitOn_intercalate c (fun l hl => ?_) (by simpa using hne)
  obtain ⟨name, hname, rfl⟩ := List.mem_map.mp hl
  exact h name hname

/-- Segments come apart as namespaces and a local name. -/
theorem NamespaceSplit.apply_underscore {segments : List String} {last : String}
    (h : ∀ s ∈ segments ++ [last], s ≠ "" ∧ '_' ∉ s.toList) :
    underscore.apply (joinTexts "_" (segments ++ [last])) = (segments, last) := by
  have hsplit : (joinTexts "_" (segments ++ [last])).toList.splitOnP underscore.isSeparator =
      (segments ++ [last]).map String.toList := by
    have hsep : underscore.isSeparator = (· == '_') := rfl
    rw [hsep, ← List.splitOn_eq_splitOnP]
    exact splitOn_joinTexts rfl (by simp) fun s hs => (h s hs).2
  have hpieces : (underscore.pieces (joinTexts "_" (segments ++ [last])).toList).map String.ofList =
      segments ++ [last] := by
    have hfilter : ((segments ++ [last]).map String.toList).filter (!·.isEmpty) =
        (segments ++ [last]).map String.toList := by
      rw [List.filter_eq_self]
      intro l hl
      obtain ⟨s, hs, rfl⟩ := List.mem_map.mp hl
      have := (h s hs).1
      simpa using this
    rw [pieces, hsplit, hfilter, List.map_map]
    exact (List.map_congr_left fun s _ => String.ofList_toList).trans (List.map_id _)
  simp [apply, hpieces]

/-- What a segmented name is split into is what it is joined from. -/
theorem Segmented.flatName {name : String} (h : Segmented name) :
    NamespacePolicy.joinUnderscore.flatName (NamespaceSplit.underscore.apply name).1
      (NamespaceSplit.underscore.apply name).2 = name := by
  obtain ⟨segments, hne, hs, rfl⟩ := h
  rcases List.eq_nil_or_concat segments with rfl | ⟨before, last, rfl⟩
  · exact absurd rfl hne
  · rw [List.concat_eq_append] at hs ⊢
    rw [NamespaceSplit.apply_underscore hs]
    rfl

theorem map_eq_self {names : List String} {f : String → String} :
    names.map f = names ↔ ∀ name ∈ names, f name = name := by
  induction names with
  | nil => simp
  | cons name rest ih => simp [ih]

/-- The names that the types of a document refer to. -/
def Document.refs (d : Document) : List (List String) := d.types.map fun t => t.node.refs

/-- Where names are split into namespaces and joined again, a reference still names its type unless a namespace
around it captures its name; then it names the type of the innermost such namespace. -/
theorem Document.namespaces_references (d : Document) (options : WriteOptions) (readOptions : ReadOptions)
    (source : String) {placed : List Placed} (hplaced : d.declarations options = .ok placed)
    (hsplit : options.namespaces = .underscore) (hjoin : readOptions.namespaces = .joinUnderscore)
    (hnames : (d.types.map NamedType.name).Nodup) (hsegmented : ∀ t ∈ d.types, Segmented t.name)
    (hmaps : ∀ t ∈ d.types, ∀ n ∈ t.node.nodes, n.Distinct)
    (hrefs : ∀ t ∈ d.types, ∀ r ∈ t.node.refs, r ∉ ["Array", "Pick", "Omit", "Partial"]) :
    let names := d.types.map NamedType.name
    let scope (t : NamedType) := (NamespaceSplit.underscore.apply t.name).1
    ∃ back : Document,
      SourceFile.convert ⟨placed.map Placed.nested⟩ source readOptions = {
        result := .ok { data := back, converted := names, notConverted := [] } } ∧
      back.refs = d.types.map (fun t =>
        (t.normal d.types).node.refs.map (NamespacePolicy.joinUnderscore.target names (scope t))) ∧
      (back.refs = d.normal.refs ↔
        ∀ t ∈ d.types, ∀ r ∈ (t.normal d.types).node.refs, ¬Captured names (scope t) r) := by
  intro names scope
  have hconvert := d.convert_nested options readOptions source hplaced hnames hmaps hrefs
    (by rw [hsplit, hjoin]; exact fun t ht => (hsegmented t ht).flatName) (by rw [hjoin]; intro h; cases h)
  rw [hsplit, hjoin] at hconvert
  have hback : (d.recovered .underscore .joinUnderscore).refs = d.types.map (fun t =>
      (t.normal d.types).node.refs.map (NamespacePolicy.joinUnderscore.target names (scope t))) := by
    simp [Document.refs, recovered, ReadBack.refs_declared, names, scope]
  refine ⟨_, hconvert, hback, ?_⟩
  rw [hback]
  simp only [Document.refs, Document.normal, List.map_map, List.map_inj_left, Function.comp_apply,
    ← NamespacePolicy.target_eq_self]
  exact forall₂_congr fun t _ => map_eq_self

/-- Inside `namespace A`, the name `C` means `A_C` and no longer the `C` outside. -/
theorem Document.namespaces_references_captured :
    let d : Document := ⟨currentVersion, [⟨"A_B", .of (.ref "C")⟩, ⟨"A_C", .of .string⟩, ⟨"C", .of .number⟩]⟩
    ∃ placed back, d.declarations { namespaces := .underscore } = .ok placed ∧
      SourceFile.convert ⟨placed.map Placed.nested⟩ "" { namespaces := .joinUnderscore } = {
        result := .ok { data := back, converted := ["A_B", "A_C", "C"], notConverted := [] } } ∧
      back.refs = [["A_C"], [], []] ∧ d.normal.refs = [["C"], [], []] := by
  intro d
  have hsegmented : ∀ t ∈ d.types, Segmented t.name := by
    simp only [d, List.forall_mem_cons, List.not_mem_nil, false_implies, implies_true, and_true]
    exact ⟨⟨["A", "B"], by decide⟩, ⟨["A", "C"], by decide⟩, ⟨["C"], by decide⟩⟩
  obtain ⟨placed, hplaced⟩ := d.declarations_total { namespaces := .underscore }
    (by simp [d, Node.nodes, Kind.nodes, Node.of])
  obtain ⟨back, hconvert, hback, -⟩ := d.namespaces_references { namespaces := .underscore }
    { namespaces := .joinUnderscore } "" hplaced rfl rfl (by simp [d]) hsegmented
    (by simp [d, Node.nodes, Kind.nodes, Node.of, Node.distinct_iff, Kind.Distinct])
    (by simp [d, Node.refs, Node.nodes, Kind.nodes, Node.of, Kind.ref?])
  refine ⟨placed, back, hplaced, hconvert, hback.trans ?_, ?_⟩
  · decide
  · decide

end TypeSchema
