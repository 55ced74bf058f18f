import TypeSchema.Proofs.FileReading
import TypeSchema.Proofs.Writable

namespace TypeSchema

mutual

/-- Every number inside a value is an integer of sixty-three bits. -/
def Json.Whole : Json → Prop
  | .number (.integer n) => n.natAbs < Nat.pow 2 63
  | .number (.float _) => False
  | .array items => WholeItems items
  | .object fields => WholeFields fields
  | .null | .bool _ | .string _ => True

def WholeItems : List Json → Prop
  | [] => True
  | item :: rest => item.Whole ∧ WholeItems rest

def WholeFields : List (String × Json) → Prop
  | [] => True
  | (_, value) :: rest => value.Whole ∧ WholeFields rest

end

/-- The members of an intersection. -/
def Kind.conjuncts : Kind → Option (List Node)
  | .and members => some members
  | _ => none

/-- A node whose type is read as it is printed. The comment of an intersection in a union, and that at the very start of
a union, would be read for other types. -/
structure Node.Printable (node : Node) : Prop where
  ref : ∀ name, node.kind = .ref name → isTypeName name
  members : ∀ ms, node.kind = .or ms ∨ node.kind = .and ms → 2 ≤ ms.length
  constant : ∀ v ∈ node.constant, v.Whole
  enumeration : ∀ vs ∈ node.enumeration, 2 ≤ vs.length ∧ WholeItems vs
  conjunctions : ∀ ms, node.kind = .or ms → ∀ m ∈ ms, m.kind.conjuncts.isSome → m.annotations.isEmpty
  first : ∀ ms, node.kind = .or ms → ∀ m ∈ ms.head?, ∀ fs ∈ m.kind.conjuncts, ∀ f ∈ fs.head?, f.annotations.isEmpty

theorem legibleOperands_cons {t : TypeExpr} {rest : List TypeExpr} :
    LegibleOperands (t :: rest) ↔ (∀ d ∈ t.doc, IsDoc d) ∧ t.kind.Legible ∧ LegibleOperands rest := by
  obtain ⟨kind, doc, span⟩ := t
  exact Iff.rfl

theorem legibleElements_cons {e : TupleElement} {rest : List TupleElement} :
    LegibleElements (e :: rest) ↔
      e.mark ≠ .optional ∧ e.label = none ∧ e.type.doc = none ∧ e.type.kind.Legible ∧ LegibleElements rest := by
  obtain ⟨mark, ⟨kind, doc, span⟩, label⟩ := e
  exact Iff.rfl

theorem legibleElements_append {es more : List TupleElement} :
    LegibleElements (es ++ more) ↔ LegibleElements es ∧ LegibleElements more := by
  induction es with
  | nil => exact (iff_of_eq (true_and _)).symm
  | cons e rest ih => simp only [List.cons_append, legibleElements_cons, ih, and_assoc]

theorem legibleMembers_property {name : String} {optional : Bool} {t : TypeExpr} {doc : Option String}
    {span : Option Span} {rest : List Member} :
    LegibleMembers (.property name optional (some t) doc span :: rest) ↔
      (∀ d ∈ doc, IsDoc d) ∧ t.doc = none ∧ t.kind.Legible ∧ LegibleMembers rest := by
  obtain ⟨kind, inner, span'⟩ := t
  exact Iff.rfl

theorem legibleMembers_append {ms more : List Member} (h : LegibleMembers ms) (hm : LegibleMembers more) :
    LegibleMembers (ms ++ more) := by
  induction ms with
  | nil => exact hm
  | cons m rest ih =>
    match m with
    | .property _ _ (some ⟨_, _, _⟩) _ _ => exact ⟨h.1, h.2.1, h.2.2.1, ih h.2.2.2⟩
    | .index _ ⟨_, _, _⟩ ⟨_, _, _⟩ _ _ =>
      obtain ⟨hd, hp, hkd, hk, hvd, hv, hrest⟩ := h
      exact ⟨hd, hp, hkd, hk, hvd, hv, ih hrest⟩
    | .property _ _ none _ _ | .other _ => cases h

mutual

theorem legible_constant (value : Json) (h : value.Whole) : (constantType value).kind.Legible := by
  match value with
  | .null | .bool _ | .string _ => exact trivial
  | .number (.integer n) => exact h
  | .number (.float _) => cases h
  | .array items => exact legible_items items h
  | .object fields => exact legible_fields fields h

theorem legible_items (items : List Json) (h : WholeItems items) : LegibleElements (constantElements items) := by
  match items with
  | [] => exact trivial
  | item :: rest =>
    rw [constantElements]
    exact legibleElements_cons.mpr ⟨nofun, rfl, ReadBack.doc_constantType item, legible_constant item h.1,
      legible_items rest h.2⟩

theorem legible_fields (fields : List (String × Json)) (h : WholeFields fields) :
    LegibleMembers (constantMembers fields) := by
  match fields with
  | [] => exact trivial
  | (name, value) :: rest =>
    rw [constantMembers]
    exact legibleMembers_property.mpr ⟨by simp, ReadBack.doc_constantType value, legible_constant value h.1,
      legible_fields rest h.2⟩

end

theorem isIntersection_constant (value : Json) : (constantType value).kind.isIntersection = false := by
  cases value <;> rfl

theorem leadingDoc_of_not_intersection {kind : TypeKind} (h : kind.isIntersection = false) :
    kind.leadingDoc = none := by
  cases kind with
  | intersection => cases h
  | _ => rfl

theorem legible_constants (values : List Json) (hlength : 2 ≤ values.length) (h : WholeItems values) :
    (TypeKind.union (constantTypes values)).Legible := by
  refine ⟨by rwa [constantTypes, List.length_map], ⟨?_, ?_⟩, ?_⟩
  · intro t ht
    obtain ⟨value, -, rfl⟩ := List.mem_map.mp ht
    exact fun _ => ReadBack.doc_constantType value
  · intro t ht
    obtain ⟨value, -, rfl⟩ := List.mem_map.mp (List.mem_of_head? ht)
    exact leadingDoc_of_not_intersection (isIntersection_constant value)
  · clear hlength
    induction values with
    | nil => exact trivial
    | cons value rest ih =>
      have hdoc := ReadBack.doc_constantType value
      exact legibleOperands_cons.mpr ⟨by simp [hdoc], legible_constant value h.1, ih h.2⟩

theorem commentOf_of_isEmpty {a : Annotations} (h : a.isEmpty) (inferred : Option String) :
    commentOf a inferred = none := by
  obtain ⟨title, description, examples, defaultValue, see⟩ := a
  simp only [Annotations.isEmpty, Bool.and_eq_true, Option.isNone_iff_eq_none] at h
  obtain ⟨⟨⟨⟨rfl, rfl⟩, rfl⟩, rfl⟩, rfl⟩ := h
  rfl

theorem isDoc_commentOf {a : Annotations} {inferred : Option String} : ∀ d ∈ commentOf a inferred, IsDoc d :=
  fun _ hd => isDoc_render hd

theorem legible_any (w : Wording) : w.any.doc = none ∧ w.any.kind.Legible := by
  have hpredefined : Keyword.unknown ∈ TypeReader.predefined ∧ Keyword.any ∈ TypeReader.predefined := by decide
  rw [Wording.any]
  split
  · exact ⟨rfl, hpredefined.1⟩
  · exact ⟨rfl, hpredefined.2⟩

theorem legible_array {t : TypeExpr} (hdoc : t.doc = none) (hk : t.kind.Legible) : (TypeKind.array t).Legible := by
  obtain ⟨kind, doc, span⟩ := t
  exact ⟨hdoc, hk⟩

theorem legible_rest {t : TypeExpr} (hdoc : t.doc = none) (hk : t.kind.Legible) :
    LegibleElements [{ mark := .rest, type := .of (.array t) }] :=
  legibleElements_cons.mpr ⟨nofun, rfl, rfl, legible_array hdoc hk, trivial⟩

theorem legible_indexMember {t : TypeExpr} (hdoc : t.doc = none) (hk : t.kind.Legible) :
    LegibleMembers [indexMember t] := by
  have hpredefined : Keyword.string ∈ TypeReader.predefined := by decide
  obtain ⟨kind, doc, span⟩ := t
  exact ⟨nofun, by decide, rfl, hpredefined, hdoc, hk, trivial⟩

namespace Encode

variable {w : Wording}

/-- Each member is what its node is encoded to, with the comment of the node. -/
theorem members_ok {path : Path} {nodes : List Node} {ts : List TypeExpr} (h : members w path nodes = .ok ts) :
    List.Forall₂ (fun node t => ∃ path' t', type w path' node = .ok t' ∧ t.kind = t'.kind ∧
      t.doc = commentOf node.annotations path'.title?) nodes ts := by
  induction nodes generalizing ts with
  | nil =>
    cases h
    exact .nil
  | cons node rest ih =>
    simp only [members, bind_ok, pure_ok, Except.ok.injEq] at h
    obtain ⟨t, ht, ts', hts, rfl⟩ := h
    exact .cons ⟨_, t, ht, by dsimp only, by dsimp only⟩ (ih hts)

/-- Only an intersection is encoded to one. -/
theorem intersection_of_type {path : Path} {node : Node} {t : TypeExpr} (h : type w path node = .ok t)
    (ht : t.kind.isIntersection) :
    ∃ all ts, node.kind = .and all ∧ members w path all = .ok ts ∧ t.kind = .intersection ts := by
  obtain ⟨kind, constant, enumeration, annotations, loc⟩ := node
  cases hk : kind.takesConstant with
  | true =>
    cases constant with
    | some value =>
      rw [ReadBack.encode_constant hk, Except.ok.injEq] at h
      subst h
      rw [isIntersection_constant] at ht
      cases ht
    | none =>
      cases enumeration with
      | some values =>
        rw [ReadBack.encode_enumeration hk, Except.ok.injEq] at h
        subst h
        cases ht
      | none =>
        cases kind <;> simp only [Kind.takesConstant, Bool.false_eq_true] at hk
        all_goals simp only [type, bind_ok, pure_ok, Except.ok.injEq, reduceCtorEq] at h
        all_goals first | subst h | obtain ⟨_, _, rfl⟩ := h | obtain ⟨_, _, _, _, rfl⟩ := h
        all_goals cases ht
  | false =>
    cases kind <;> simp only [Kind.takesConstant, reduceCtorEq] at hk
    all_goals
      simp only [type, bind_ok, pure_ok, Except.ok.injEq] at h
      first | subst h | obtain ⟨_, _, rfl⟩ := h
    · cases ht
    · cases ht
    · exact ⟨_, _, rfl, by assumption, rfl⟩

/-- The members of a union say where their comments belong. -/
theorem saysWhere_members {path : Path} {nodes : List Node} {ts : List TypeExpr} (h : members w path nodes = .ok ts)
    (hnodes : ∀ m ∈ nodes, m.kind.conjuncts.isSome → m.annotations.isEmpty)
    (hfirst : ∀ m ∈ nodes.head?, ∀ fs ∈ m.kind.conjuncts, ∀ f ∈ fs.head?, f.annotations.isEmpty) : SaysWhere ts := by
  have hall := members_ok h
  refine ⟨fun t ht hk => ?_, fun t ht => ?_⟩
  · obtain ⟨m, hm, path', t', ht', hkind, hdoc⟩ := exists_of_forall₂_of_mem hall ht
    obtain ⟨all, _, hand, -⟩ := intersection_of_type ht' (hkind ▸ hk)
    rw [hdoc, commentOf_of_isEmpty (hnodes m hm (by rw [hand]; rfl))]
  · cases hall with
    | nil => cases ht
    | @cons m u _ _ hm _ =>
      obtain rfl : u = t := Option.some.inj ht
      obtain ⟨path', t', ht', hkind, -⟩ := hm
      cases hk : u.kind.isIntersection with
      | false => exact leadingDoc_of_not_intersection hk
      | true =>
        obtain ⟨fs, ts', hand, hts', hint⟩ := intersection_of_type ht' (hkind ▸ hk)
        rw [hkind, hint]
        cases members_ok hts' with
        | nil => rfl
        | @cons f v _ _ hf _ =>
          obtain ⟨_, _, -, -, hdoc⟩ := hf
          change v.doc = none
          rw [hdoc, commentOf_of_isEmpty (hfirst m rfl _ (by rw [hand]; rfl) f rfl)]

mutual

theorem type_legible (path : Path) (node : Node) (t : TypeExpr) (h : type w path node = .ok t)
    (hn : ∀ n ∈ node.nodes, n.Printable) : t.kind.Legible := by
  have hself := hn node node.self_mem_nodes
  have hpredefined : ∀ k ∈ [Keyword.string, .number, .boolean], (TypeKind.keyword k).Legible := by
    have : ∀ k ∈ [Keyword.string, .number, .boolean], k ∈ TypeReader.predefined := by decide
    exact this
  rw [node.nodes_eq] at hn
  obtain ⟨kind, constant, enumeration, annotations, loc⟩ := node
  cases hk : kind.takesConstant with
  | true =>
    match constant, enumeration with
    | some value, _ =>
      rw [ReadBack.encode_constant hk, Except.ok.injEq] at h
      subst h
      exact legible_constant value (hself.constant value rfl)
    | none, some values =>
      rw [ReadBack.encode_enumeration hk, Except.ok.injEq] at h
      subst h
      exact legible_constants values (hself.enumeration values rfl).1 (hself.enumeration values rfl).2
    | none, none =>
      match kind with
      | .object named more =>
        simp only [type, bind_ok, pure_ok, Except.ok.injEq] at h
        obtain ⟨ms, hms, ms', hms', rfl⟩ := h
        simp only [Kind.nodes, List.mem_cons, List.mem_append] at hn
        exact legibleMembers_append (propertyMembers_legible path named ms hms fun n h => hn n (.inr (.inl h)))
          (indexMembers_legible path more ms' hms' fun n h => hn n (.inr (.inr h)))
      | .array element =>
        simp only [type, bind_ok, pure_ok, Except.ok.injEq] at h
        obtain ⟨item, hitem, rfl⟩ := h
        simp only [Kind.nodes, List.mem_cons] at hn
        exact legible_array (ReadBack.encode_shape hitem).1
          (type_legible _ element item hitem fun n h => hn n (.inr h))
      | .tuple items more _ =>
        simp only [type, bind_ok, pure_ok, Except.ok.injEq] at h
        obtain ⟨es, hes, es', hes', rfl⟩ := h
        simp only [Kind.nodes, List.mem_cons, List.mem_append] at hn
        exact legibleElements_append.mpr ⟨elements_legible path.tail 0 items es hes fun n h => hn n (.inr (.inl h)),
          restElements_legible path.tail items.length more es' hes' fun n h => hn n (.inr (.inr h))⟩
      | .string | .number | .integer | .boolean =>
        cases h
        exact hpredefined _ (by decide)
      | .any =>
        cases h
        exact (legible_any w).2
      | .ref name =>
        cases h
        exact ⟨hself.ref name rfl, rfl, rfl⟩
      | .unsupported => cases h
  | false =>
    match kind with
    | .or all =>
      simp only [type, bind_ok, pure_ok, Except.ok.injEq] at h
      obtain ⟨ts, hts, rfl⟩ := h
      have hwhere := saysWhere_members hts (hself.conjunctions all rfl) (hself.first all rfl)
      simp only [Kind.nodes, List.mem_cons] at hn
      refine ⟨?_, hwhere, members_legible path all ts hts fun n h => hn n (.inr h)⟩
      rw [← (members_ok hts).length_eq]
      exact hself.members all (.inl rfl)
    | .and all =>
      simp only [type, bind_ok, pure_ok, Except.ok.injEq] at h
      obtain ⟨ts, hts, rfl⟩ := h
      simp only [Kind.nodes, List.mem_cons] at hn
      refine ⟨?_, members_legible path all ts hts fun n h => hn n (.inr h)⟩
      rw [← (members_ok hts).length_eq]
      exact hself.members all (.inr rfl)
    | .null =>
      cases h
      exact trivial

theorem members_legible (path : Path) (nodes : List Node) (ts : List TypeExpr) (h : members w path nodes = .ok ts)
    (hn : ∀ n ∈ nodesOf nodes, n.Printable) : LegibleOperands ts := by
  match nodes with
  | [] =>
    cases h
    exact trivial
  | node :: rest =>
    simp only [members, bind_ok, pure_ok, Except.ok.injEq] at h
    obtain ⟨t, ht, ts', hts, rfl⟩ := h
    simp only [nodesOf, List.mem_append] at hn
    simp only [legibleOperands_cons]
    exact ⟨isDoc_commentOf, type_legible _ node t ht fun n h => hn n (.inl h),
      members_legible path rest ts' hts fun n h => hn n (.inr h)⟩

theorem elements_legible (outer : Path) (i : Nat) (nodes : List Node) (es : List TupleElement)
    (h : elements w outer i nodes = .ok es) (hn : ∀ n ∈ nodesOf nodes, n.Printable) : LegibleElements es := by
  match nodes with
  | [] =>
    cases h
    exact trivial
  | node :: rest =>
    simp only [elements, bind_ok, pure_ok, Except.ok.injEq] at h
    obtain ⟨t, ht, es', hes, rfl⟩ := h
    simp only [nodesOf, List.mem_append] at hn
    exact legibleElements_cons.mpr ⟨nofun, rfl, (ReadBack.encode_shape ht).1,
      type_legible _ node t ht fun n h => hn n (.inl h),
      elements_legible outer (i + 1) rest es' hes fun n h => hn n (.inr h)⟩

theorem restElements_legible (outer : Path) (i : Nat) (more : Additional) (es : List TupleElement)
    (h : restElements w outer i more = .ok es) (hn : ∀ n ∈ more.nodes, n.Printable) : LegibleElements es := by
  match more with
  | .allowed false =>
    cases h
    exact trivial
  | .allowed true =>
    cases h
    exact legible_rest (legible_any w).1 (legible_any w).2
  | .node node =>
    simp only [restElements, bind_ok, pure_ok, Except.ok.injEq] at h
    obtain ⟨t, ht, rfl⟩ := h
    exact legible_rest (ReadBack.encode_shape ht).1 (type_legible _ node t ht (by simpa [Additional.nodes] using hn))

theorem propertyMembers_legible (path : Path) (named : List (String × Property)) (ms : List Member)
    (h : propertyMembers w path named = .ok ms) (hn : ∀ n ∈ nodesOfProperties named, n.Printable) :
    LegibleMembers ms := by
  match named with
  | [] =>
    cases h
    exact trivial
  | (name, ⟨node, required⟩) :: rest =>
    simp only [propertyMembers, bind_ok, pure_ok, Except.ok.injEq] at h
    obtain ⟨t, ht, ms', hms, rfl⟩ := h
    simp only [nodesOfProperties, List.mem_append] at hn
    exact legibleMembers_property.mpr ⟨isDoc_commentOf, (ReadBack.encode_shape ht).1,
      type_legible _ node t ht fun n h => hn n (.inl h),
      propertyMembers_legible path rest ms' hms fun n h => hn n (.inr h)⟩

theorem indexMembers_legible (path : Path) (more : Additional) (ms : List Member)
    (h : indexMembers w path more = .ok ms) (hn : ∀ n ∈ more.nodes, n.Printable) : LegibleMembers ms := by
  match more with
  | .allowed false =>
    cases h
    exact trivial
  | .allowed true =>
    cases h
    exact legible_indexMember (legible_any w).1 (legible_any w).2
  | .node node =>
    simp only [indexMembers, bind_ok, pure_ok, Except.ok.injEq] at h
    obtain ⟨t, ht, rfl⟩ := h
    exact legible_indexMember (ReadBack.encode_shape ht).1
      (type_legible _ node t ht (by simpa [Additional.nodes] using hn))

end

theorem ownMembers_legible (path : Path) (object : Option Node) (ms : List Member)
    (h : ownMembers w path object = .ok ms) (hn : ∀ o ∈ object, ∀ n ∈ o.nodes, n.Printable) : LegibleMembers ms := by
  match object with
  | none =>
    cases h
    exact trivial
  | some ⟨kind, c, e, a, l⟩ =>
    replace hn := hn _ rfl
    cases kind
    case object named more =>
      simp only [ownMembers, objectMembers, bind_ok, pure_ok, Except.ok.injEq] at h
      obtain ⟨ms, hms, ms', hms', rfl⟩ := h
      simp only [Node.nodes, Kind.nodes, List.mem_cons, List.mem_append] at hn
      exact legibleMembers_append (propertyMembers_legible path named ms hms fun n h => hn n (.inr (.inl h)))
        (indexMembers_legible path more ms' hms' fun n h => hn n (.inr (.inr h)))
    all_goals
      cases h
      exact trivial

end Encode

/-- A declaration is legible where its name and its namespaces are names and its nodes are printable. -/
theorem NamedType.declaration_legible {named : NamedType} {options : WriteOptions} {roots : List NamedType} {p : Placed}
    (h : named.declaration options roots = .ok p) (hname : isTypeName (options.namespaces.apply named.name).2)
    (hspaces : ∀ n ∈ (options.namespaces.apply named.name).1, isTypeName n)
    (hnodes : ∀ n ∈ named.node.nodes, n.Printable) : p.Legible := by
  cases hrec : record? roots named.node with
  | some record =>
    obtain ⟨hobject, hparents⟩ := ReadBack.record_mem hrec
    rw [ReadBack.declaration_record hrec, bind_ok] at h
    obtain ⟨ms, hms, h⟩ := h
    cases h
    refine ⟨hspaces, ?_⟩
    simp only [Statement.Legible]
    refine ⟨hname, trivial, trivial, isDoc_commentOf, fun parent hp => ?_, ?_⟩
    · obtain ⟨name, hmem, rfl⟩ := List.mem_map.mp hp
      obtain ⟨n, hn, hk⟩ := Node.mem_refs.mp (hparents name hmem)
      exact ⟨name, (hnodes n hn).ref name hk, rfl⟩
    · exact Encode.ownMembers_legible _ _ ms hms fun o ho n hn => hnodes n ((hobject o ho).2 n hn)
  | none =>
    simp only [declaration, hrec, bind_ok, pure_ok, Except.ok.injEq] at h
    obtain ⟨value, hvalue, rfl⟩ := h
    refine ⟨hspaces, ?_⟩
    simp only [Statement.Legible]
    exact ⟨hname, trivial, trivial, isDoc_commentOf, (ReadBack.encode_shape hvalue).1,
      Encode.type_legible _ named.node value hvalue hnodes⟩

/-- The header is not read as the comment of the first declaration. -/
theorem clear_headerLead (o : WriteOptions) : o.headerLead.Clear := by
  intro doc
  rw [WriteOptions.headerLead, WriteOptions.lintLead]
  cases o.noDescriptiveHeader <;> cases o.noDisableLintHeader <;> rfl

/-- Printing and reading are inverse on whole files: the text of a document is read as the declarations that it was
printed from, in their order, each in its namespaces and with its comment. The header is no part of that. -/
theorem Document.read_emit (d : Document) (o : WriteOptions) (c : Conversion String) (h : d.emit o = .ok c)
    (hheader : ∀ s ∈ o.headerTexts, Open s.toList)
    (hnames : ∀ t ∈ d.types, isTypeName (o.namespaces.apply t.name).2 ∧
      ∀ n ∈ (o.namespaces.apply t.name).1, isTypeName n)
    (hnodes : ∀ t ∈ d.types, ∀ n ∈ t.node.nodes, n.Printable) :
    ∃ placed, d.declarations o = .ok placed ∧
      plainStatements (SourceFile.ofText c.data).statements = plainStatements (placed.map Placed.nested) := by
  have hlegible (placed : List Placed) (hp : d.declarations o = .ok placed) (p : Placed) (hmem : p ∈ placed) :
      p.Legible := by
    obtain ⟨t, ht, hdecl⟩ := exists_of_forall₂_of_mem (declarations_ok hp) hmem
    exact t.declaration_legible hdecl (hnames t ht).1 (hnames t ht).2 (hnodes t ht)
  obtain ⟨placed, hp, htokens⟩ := tokens_emit h hheader hlegible
  refine ⟨placed, hp, SourceFile.ofText_shows (hlegible placed hp) (clear_headerLead o) (fun hne => ?_) htokens⟩
  rw [endLead, if_neg (by simpa using hne)]
  rfl

theorem Node.printable_iff {node : Node} : node.Printable ↔
    (∀ name, node.kind = .ref name → isTypeName name) ∧
      (∀ ms, node.kind = .or ms ∨ node.kind = .and ms → 2 ≤ ms.length) ∧
      (∀ v ∈ node.constant, v.Whole) ∧ (∀ vs ∈ node.enumeration, 2 ≤ vs.length ∧ WholeItems vs) ∧
      (∀ ms, node.kind = .or ms → ∀ m ∈ ms, m.kind.conjuncts.isSome → m.annotations.isEmpty) ∧
      ∀ ms, node.kind = .or ms → ∀ m ∈ ms.head?, ∀ fs ∈ m.kind.conjuncts, ∀ f ∈ fs.head?, f.annotations.isEmpty :=
  ⟨fun ⟨hr, hm, hc, he, ha, hf⟩ => ⟨hr, hm, hc, he, ha, hf⟩, fun ⟨hr, hm, hc, he, ha, hf⟩ => ⟨hr, hm, hc, he, ha, hf⟩⟩

/-- A pet and its owner in namespaces, behind a header. The name of the first property needs quotes, its comment has two
lines, and an intersection stands in front of a commented member of a union. -/
theorem Document.read_emit_pets :
    let name : Node := { kind := .string, annotations := { description := some "What it is called.\n\nBy its owner." } }
    let legs : Node := { kind := .integer, enumeration := some [.int (-1), .int 4] }
    let pet : Node := .of (.object [("it's", ⟨name, true⟩), ("legs", ⟨legs, false⟩)] (.allowed true))
    let none' : Node := { kind := .null, annotations := { description := some "Nobody." } }
    let owner : Node := .of (.or [.of (.and [.of (.ref "Zoo_Pet"), pet]), none'])
    let d : Document := ⟨currentVersion, [⟨"Zoo_Pet", pet⟩, ⟨"Zoo_Staff_Owner", owner⟩]⟩
    let o : WriteOptions := { namespaces := .underscore, filename := some "pets.ts" }
    ∃ c placed, d.emit o = .ok c ∧ d.declarations o = .ok placed ∧
      plainStatements (SourceFile.ofText c.data).statements = plainStatements (placed.map Placed.nested) := by
  intro name legs pet none' owner d o
  obtain ⟨placed, hplaced⟩ := d.declarations_total o (by
    simp [d, owner, pet, name, legs, none', Node.nodes, Kind.nodes, nodesOf, nodesOfProperties, Additional.nodes,
      Node.of])
  obtain ⟨c, hc⟩ : ∃ c, d.emit o = .ok c := ⟨_, by rw [emit, emitWith, hplaced]; rfl⟩
  have hnames : ∀ t ∈ d.types, isTypeName (o.namespaces.apply t.name).2 ∧
      ∀ n ∈ (o.namespaces.apply t.name).1, isTypeName n := by
    have hpet : isTypeName (NamespaceSplit.underscore.apply "Zoo_Pet").2 ∧
        ∀ n ∈ (NamespaceSplit.underscore.apply "Zoo_Pet").1, isTypeName n := by decide +kernel
    have howner : isTypeName (NamespaceSplit.underscore.apply "Zoo_Staff_Owner").2 ∧
        ∀ n ∈ (NamespaceSplit.underscore.apply "Zoo_Staff_Owner").1, isTypeName n := by decide +kernel
    simpa [d, o] using ⟨hpet, howner⟩
  have hheader : ∀ s ∈ o.headerTexts, Open s.toList := by
    have hfile : Open "pets.ts".toList := open_of_not_mem (.inl (by decide))
    simpa [o, WriteOptions.headerTexts] using hfile
  have href : isTypeName "Zoo_Pet" := by decide +kernel
  have hnodes : ∀ t ∈ d.types, ∀ n ∈ t.node.nodes, n.Printable := by
    simp [d, owner, pet, name, legs, none', Node.nodes, Kind.nodes, nodesOf, nodesOfProperties, Additional.nodes,
      Node.of, Node.printable_iff, Kind.conjuncts, Annotations.isEmpty, WholeItems, Json.Whole, Json.int, href]
  obtain ⟨placed', hplaced', hread⟩ := d.read_emit o c hc hheader hnames hnodes
  exact ⟨c, placed', hc, hplaced', hread⟩

end TypeSchema
