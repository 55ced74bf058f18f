import TypeSchema.Proofs.Documentation

namespace TypeSchema

/-- A reference to an object type among some types. -/
def RefersToObject (roots : List NamedType) (node : Node) : Prop :=
  ∃ name, node.kind = .ref name ∧ ∃ t ∈ roots, t.name = name ∧ t.node.kind.isObject

/-- The members of an intersection that extends object types: references to them, one at least, and at most one object
beside them. -/
structure Extending (roots : List NamedType) (members : List Node) : Prop where
  each : ∀ m ∈ members, m.kind.isObject ∨ RefersToObject roots m
  ref : ∃ m ∈ members, RefersToObject roots m
  object : members.countP (·.kind.isObject) ≤ 1

theorem refersToObject_iff {roots : List NamedType} {node : Node} :
    RefersToObject roots node ↔ ∃ name, node.kind.ref? = some name ∧ namesObject roots name := by
  have href (name : String) : node.kind = .ref name ↔ node.kind.ref? = some name := by
    cases node.kind <;> simp [Kind.ref?]
  simp [RefersToObject, href, namesObject]

/-- Members make a record just if each of them is an object or extends one, and at most one is an object. -/
theorem heritage?_eq_some_iff {roots : List NamedType} {members : List Node} {h : Heritage} :
    heritage? roots members = some h ↔ (∀ m ∈ members, m.kind.isObject ∨ RefersToObject roots m) ∧
      members.countP (·.kind.isObject) ≤ 1 ∧
      ⟨members.find? (·.kind.isObject), members.filterMap (·.kind.ref?)⟩ = h := by
  induction members generalizing h with
  | nil => simp [heritage?]
  | cons m rest ih =>
    rw [heritage?_cons, List.forall_mem_cons]
    simp only [Option.bind_eq_some_iff, ih, refersToObject_iff]
    cases hobject : m.kind.isObject with
    | true =>
      have href : m.kind.ref? = none := by
        cases hk : m.kind <;> simp_all [Kind.isObject, Kind.ref?]
      have hnone : (∀ n ∈ rest, n.kind.isObject = false) → rest.countP (·.kind.isObject) ≤ 1 := by
        intro h
        rw [List.countP_eq_zero.mpr (by simpa using h)]
        exact Nat.zero_le 1
      simp [hobject, href]
      tauto
    | false =>
      cases href : m.kind.ref? with
      | none => simp
      | some name =>
        simp [hobject, href]
        tauto

/-- Where an intersection extends no object types of the document, the document makes no difference to it. -/
theorem heritage?_of_not_extending {roots : List NamedType} {members : List Node} (h : ¬Extending roots members) :
    heritage? roots members = heritage? [] members := by
  have hno (m : Node) : ¬RefersToObject [] m := by simp [RefersToObject]
  apply Option.ext
  intro record
  rw [heritage?_eq_some_iff, heritage?_eq_some_iff]
  constructor
  · rintro ⟨heach, hone, heq⟩
    refine ⟨fun m hm => (heach m hm).imp_right fun href => ?_, hone, heq⟩
    exact absurd ⟨heach, ⟨m, hm, href⟩, hone⟩ h
  · rintro ⟨heach, hone, heq⟩
    exact ⟨fun m hm => (heach m hm).imp_right fun href => absurd href (hno m), hone, heq⟩

namespace Extending

variable {roots : List NamedType} {members : List Node} (h : Extending roots members)
include h

theorem heritage?_eq : heritage? roots members =
    some ⟨members.find? (·.kind.isObject), members.filterMap (·.kind.ref?)⟩ :=
  heritage?_eq_some_iff.mpr ⟨h.each, h.object, rfl⟩

/-- On its own, an intersection that refers to others is no record. -/
theorem heritage?_alone : heritage? [] members = none := by
  rw [Option.eq_none_iff_forall_ne_some]
  intro record hrecord
  obtain ⟨m, hm, name, hname, -⟩ := h.ref
  rcases (heritage?_eq_some_iff.mp hrecord).1 m hm with hobject | ⟨_, -, t, ht, -⟩
  · rw [hname] at hobject
    cases hobject
  · cases ht

end Extending

namespace Encode

variable {w : Wording} {path : Path}

/-- A member of a union or an intersection is written as the type of its node, with its comment in front. -/
def MemberType (w : Wording) (path : Path) (node : Node) (t : TypeExpr) : Prop :=
  ∃ bare, type w (.ofNode node :: path) node = .ok bare ∧
    t = { bare with doc := commentOf node.annotations (Path.title? (.ofNode node :: path)) }

theorem members_ok_iff {nodes : List Node} {ts : List TypeExpr} :
    members w path nodes = .ok ts ↔ List.Forall₂ (MemberType w path) nodes ts := by
  induction nodes generalizing ts with
  | nil => simp [members, eq_comm]
  | cons node rest ih =>
    simp only [members, bind_ok, pure_ok, Except.ok.injEq, ih]
    constructor
    · rintro ⟨bare, hbare, ts', hts, rfl⟩
      exact .cons ⟨bare, hbare, rfl⟩ hts
    · rintro (_ | ⟨⟨bare, hbare, rfl⟩, hts⟩)
      exact ⟨bare, hbare, _, hts, rfl⟩

theorem type_and {node : Node} {all : List Node} (h : node.kind = .and all) :
    type w path node = members w path all >>= fun types => .ok (.of (.intersection types)) := by
  obtain ⟨kind, constant, enumeration, annotations, loc⟩ := node
  obtain rfl : kind = .and all := h
  rw [type]
  rfl

end Encode

namespace NamedType

variable {named : NamedType} {roots : List NamedType} (options : WriteOptions)

/-- A declaration depends on the other types only where they decide whether it is a record. -/
theorem declaration_congr {others : List NamedType} (h : record? roots named.node = record? others named.node) :
    named.declaration options roots = named.declaration options others := by
  unfold declaration
  rw [h]

/-- What is no record is declared as an alias. -/
theorem declaration_alias (h : record? roots named.node = none) :
    named.declaration options roots =
      Encode.type { useUnknown := options.useUnknown } [.ofNode named.node, .declaration named.name] named.node >>=
        fun value => .ok ⟨(options.namespaces.apply named.name).1, .typeAlias {
          name := (options.namespaces.apply named.name).2
          exported := true
          declare := options.declaration
          value
          doc := commentOf named.node.annotations (some named.name) }⟩ := by
  simp only [declaration, h]
  rfl

/-- A type is declared alike on its own and among the types of a document, or cannot be declared with the same error,
unless it is an intersection that extends object types of the document. Such a one becomes an interface in the document,
which extends just what the intersection refers to and has the members of its object; on its own it is an alias of an
intersection, member by member. Namespaces, name, modifiers and comment are the same. -/
theorem declaration_alone (named : NamedType) (options : WriteOptions) (roots : List NamedType) :
    let w : Wording := { useUnknown := options.useUnknown }
    let path : Path := [.declaration named.name]
    let namespaces := (options.namespaces.apply named.name).1
    let name := (options.namespaces.apply named.name).2
    let doc := commentOf named.node.annotations (some named.name)
    ((∀ all, named.node.kind = .and all → ¬Extending roots all) →
      named.declaration options roots = named.soleDeclaration options) ∧
    ∀ all, named.node.kind = .and all → Extending roots all →
      (∀ p, named.declaration options roots = .ok p ↔
        ∃ members, Encode.ownMembers w path (all.find? (·.kind.isObject)) = .ok members ∧
          p = ⟨namespaces, .interface {
            name, exported := true, declare := options.declaration
            heritage := (all.filterMap (·.kind.ref?)).map TypeExpr.reference
            members, doc }⟩) ∧
      ∀ p, named.soleDeclaration options = .ok p ↔
        ∃ types, List.Forall₂ (Encode.MemberType w (.ofNode named.node :: path)) all types ∧
          p = ⟨namespaces, .typeAlias {
            name, exported := true, declare := options.declaration
            value := .of (.intersection types), doc }⟩ := by
  intro w path namespaces name doc
  refine ⟨fun h => declaration_congr options ?_, fun all hand h => ⟨fun p => ?_, fun p => ?_⟩⟩
  · unfold record?
    cases hk : named.node.kind with
    | and all => exact heritage?_of_not_extending (h all hk)
    | _ => rfl
  · have hrecord : record? roots named.node = heritage? roots all := by rw [record?, hand]
    rw [h.heritage?_eq] at hrecord
    rw [ReadBack.declaration_record hrecord, bind_ok]
    refine exists_congr fun members => and_congr_right fun _ => ?_
    rw [Except.ok.injEq]
    exact eq_comm
  · have hrecord : record? [] named.node = heritage? [] all := by rw [record?, hand]
    rw [h.heritage?_alone] at hrecord
    rw [soleDeclaration, declaration_alias options hrecord, Encode.type_and hand, bind_assoc, bind_ok]
    refine exists_congr fun types => ?_
    rw [Encode.members_ok_iff]
    refine and_congr_right fun _ => ?_
    change Except.ok _ = Except.ok p ↔ _
    rw [Except.ok.injEq]
    exact eq_comm

/-- A child that adds to its base extends it in the document; a tag, which meets the base with a string, is declared alike
in both places. -/
theorem declaration_alone_child :
    let base : NamedType := ⟨"Base", .of (.object [("id", ⟨.of .string, true⟩)] (.allowed false))⟩
    let size : Node := .of (.object [("size", ⟨.of .number, false⟩)] (.allowed false))
    let child : NamedType := ⟨"Child", .of (.and [size, .of (.ref "Base")])⟩
    let tag : NamedType := ⟨"Tag", .of (.and [.of .string, .of (.ref "Base")])⟩
    let roots := [base, child, tag]
    let size' : Member := .property "size" true (some (.keyword .number)) none none
    child.declaration {} roots = .ok ⟨[], .interface {
      name := "Child", exported := true, heritage := [.reference "Base"], members := [size'] }⟩ ∧
    child.soleDeclaration {} = .ok ⟨[], .typeAlias {
      name := "Child", exported := true, value := .of (.intersection [.of (.object [size']), .reference "Base"]) }⟩ ∧
    tag.declaration {} roots = tag.soleDeclaration {} := by
  intro base size child tag roots size'
  have hbase : RefersToObject roots (.of (.ref "Base")) := ⟨"Base", rfl, base, List.mem_cons_self, rfl, rfl⟩
  have hchild : Extending roots [size, .of (.ref "Base")] := {
    each := List.forall_mem_cons.mpr ⟨.inl rfl, List.forall_mem_singleton.mpr (.inr hbase)⟩
    ref := ⟨_, List.mem_cons_of_mem _ List.mem_cons_self, hbase⟩
    object := by decide }
  have htag : ∀ all, tag.node.kind = .and all → ¬Extending roots all := by
    rintro _ ⟨⟩ h
    have := h.each (.of .string) List.mem_cons_self
    simp [RefersToObject, Node.of, Kind.isObject] at this
  obtain ⟨-, hextending⟩ := child.declaration_alone {} roots
  obtain ⟨hinterface, halias⟩ := hextending _ rfl hchild
  have hsplit : (({} : WriteOptions).namespaces).apply child.name = ([], "Child") := NamespaceSplit.apply_ignore _
  rw [hsplit] at hinterface halias
  refine ⟨(hinterface _).mpr ⟨[size'], rfl, rfl⟩,
    (halias _).mpr ⟨[.of (.object [size']), .reference "Base"], Encode.members_ok_iff.mp rfl, rfl⟩,
    (tag.declaration_alone {} roots).1 htag⟩

end NamedType

end TypeSchema
