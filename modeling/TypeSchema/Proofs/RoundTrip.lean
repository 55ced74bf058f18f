import TypeSchema.Proofs.Codec
import TypeSchema.Proofs.NormalForm
import TypeSchema.Proofs.Writable

namespace TypeSchema

theorem Annotations.Canonical.recovers {a : Annotations} (h : a.Canonical) : a.Recovers := by
  intro inferred path
  obtain ⟨title, hread⟩ := h.read inferred path
  rw [commentOf, hread]
  refine sameBody_title a title fun v hv => ?_
  obtain ⟨s, hs, -⟩ := h.default v hv
  exact ⟨s, hs⟩

theorem NamespaceSplit.apply_ignore (name : String) : ignore.apply name = ([], name) := by
  by_cases hn : name.toList = []
  · simp [apply, pieces, hn]
  · have hsplit : name.toList.splitOnP ignore.isSeparator = [name.toList] :=
      List.splitOnP_eq_singleton fun c _ => by simp [isSeparator]
    simp [apply, pieces, hsplit, hn]

/-- The name that a statement declares, if it declares a type. -/
def Statement.localName? : Statement → Option String
  | .interface decl => some decl.name
  | .typeAlias decl => some decl.name
  | .namespaced _ _ _ _ => none

/-- Where a declaration stands and under which name. -/
def Placed.place (p : Placed) : List String × Option String := (p.namespaces, p.statement.localName?)

/-- A type is declared where its name says. -/
theorem NamedType.declaration_place {named : NamedType} {options : WriteOptions} {roots : List NamedType}
    {p : Placed} (h : named.declaration options roots = .ok p) :
    p.place = ((options.namespaces.apply named.name).1, some (options.namespaces.apply named.name).2) := by
  cases hrec : record? roots named.node with
  | some record =>
    rw [ReadBack.declaration_record hrec, bind_ok] at h
    obtain ⟨ms, -, h⟩ := h
    cases h
    rfl
  | none =>
    simp only [declaration, hrec, bind_ok, pure_ok, Except.ok.injEq] at h
    obtain ⟨value, -, rfl⟩ := h
    rfl

theorem NamedType.namespaces_declaration {named : NamedType} {options : WriteOptions} {roots : List NamedType}
    {p : Placed} (h : named.declaration options roots = .ok p) :
    p.namespaces = (options.namespaces.apply named.name).1 :=
  congrArg Prod.fst (declaration_place h)

/-- Where names are not split, declarations stand in no namespaces. -/
theorem Document.nested_ignore {d : Document} {options : WriteOptions} {placed : List Placed}
    (h : d.declarations options = .ok placed) (hs : options.namespaces = .ignore) :
    placed.map Placed.nested = placed.map Placed.statement := by
  refine List.map_congr_left fun p hp => ?_
  obtain ⟨t, -, ht⟩ := exists_of_forall₂_of_mem (declarations_ok h) hp
  have hns := NamedType.namespaces_declaration ht
  rw [hs, NamespaceSplit.apply_ignore] at hns
  rw [Placed.nested, hns]
  rfl

/-- A document whose annotations a comment keeps, without unsupported nodes and references that are read as
operators, is written as declarations and read back in normal form, every type in its order and under its name. -/
theorem Document.round_trip (d : Document) (options : WriteOptions) (source : String)
    (hversion : d.version = currentVersion) (hsplit : options.namespaces = .ignore)
    (hnames : (d.types.map NamedType.name).Nodup)
    (hmaps : ∀ t ∈ d.types, ∀ n ∈ t.node.nodes, n.Distinct)
    (hsupported : ∀ t ∈ d.types, ∀ n ∈ t.node.nodes, n.kind ≠ .unsupported)
    (hrefs : ∀ t ∈ d.types, ∀ r ∈ t.node.refs, r ∉ ["Array", "Pick", "Omit", "Partial"])
    (htop : ∀ t ∈ d.types, t.node.annotations.Canonical)
    (hinner : ∀ t ∈ d.types, ∀ n ∈ t.node.nodes, ∀ m ∈ n.kind.commented, m.annotations.Canonical) :
    ∃ placed recovered, d.declarations options = .ok placed ∧
      SourceFile.convert ⟨placed.map Placed.statement⟩ source {} = {
        result := .ok { data := recovered, converted := d.types.map NamedType.name, notConverted := [] } } ∧
      recovered.structureEq d.normal := by
  obtain ⟨placed, hplaced⟩ := d.declarations_total options hsupported
  refine ⟨placed, d.recovered options.namespaces .ignore, hplaced, ?_, ?_⟩
  · rw [← nested_ignore hplaced hsplit]
    refine d.convert_nested options {} source hplaced hnames hmaps hrefs ?_ ?_
    · simp [hsplit, NamespaceSplit.apply_ignore, NamespacePolicy.flatName, NamespacePolicy.separator?]
    · simp [hsplit, NamespaceSplit.apply_ignore]
  · exact recovered_structureEq hversion _ (fun t ht => (htop t ht).recovers)
      fun t ht n hn m hm => (hinner t ht n hn m hm).recovers

/-- A pet has a name with a comment, and an age that comes back as a number. -/
theorem Document.round_trip_pets :
    let name : Node := { kind := .string, annotations := { description := some "What it is called." } }
    let pet : Node := .of (.object [("name", ⟨name, true⟩), ("age", ⟨.of .integer, false⟩)] (.allowed false))
    let pets : Node := { kind := .array (.of (.ref "Pet")), annotations := { description := some "All of them." } }
    let d : Document := ⟨currentVersion, [⟨"Pet", pet⟩, ⟨"Pets", pets⟩]⟩
    ∃ placed recovered, d.declarations { useUnknown := true } = .ok placed ∧
      SourceFile.convert ⟨placed.map Placed.statement⟩ "" {} = {
        result := .ok { data := recovered, converted := ["Pet", "Pets"], notConverted := [] } } ∧
      recovered.structureEq d.normal := by
  intro name pet pets d
  have hname : name.annotations.Canonical := .described (by decide) (by decide)
  have hpets : pets.annotations.Canonical := .described (by decide) (by decide)
  refine d.round_trip { useUnknown := true } "" rfl rfl (by simp [d]) ?_ ?_ ?_ ?_ ?_
  · simp [d, pet, pets, name, Node.nodes, Kind.nodes, nodesOfProperties, Additional.nodes, Node.of, Node.distinct_iff,
      Kind.Distinct]
  · simp [d, pet, pets, name, Node.nodes, Kind.nodes, nodesOfProperties, Additional.nodes, Node.of]
  · simp [d, pet, pets, name, Node.refs, Node.nodes, Kind.nodes, nodesOfProperties, Additional.nodes, Node.of,
      Kind.ref?]
  · simpa [d, pet, hpets, Node.of] using Annotations.canonical_empty
  · simpa [d, pet, pets, name, Node.nodes, Kind.nodes, nodesOfProperties, Additional.nodes, Node.of, Kind.commented]
      using ⟨hname, Annotations.canonical_empty⟩

end TypeSchema
