import TypeSchema.Proofs.Independence
import TypeSchema.Proofs.Writable

namespace TypeSchema

/-- A value that a kind may be narrowed to. -/
def Kind.Holds : Kind → Json → Prop
  | .string, .string _ | .number, .number _ | .boolean, .bool _ => True
  | _, _ => False

/-- A kind that declarations can say, of a tuple with no more required elements than it has. -/
def Kind.Sayable : Kind → Prop
  | .integer | .unsupported => False
  | .tuple elements _ minItems => minItems ≤ elements.length
  | _ => True

/-- A node as it is made from a declaration. -/
structure Node.Decoded (node : Node) : Prop where
  kind : node.kind.Sayable
  constant : ∀ value ∈ node.constant, node.kind.Holds value
  enumeration : node.enumeration = none
  loc : node.loc = none

/-- All of them are made from declarations. -/
def AllDecoded (nodes : List Node) : Prop := ∀ n ∈ nodes, n.Decoded

section

variable {nodes more : List Node}

@[simp] theorem allDecoded_nil : AllDecoded [] := by simp [AllDecoded]

@[simp] theorem allDecoded_append : AllDecoded (nodes ++ more) ↔ AllDecoded nodes ∧ AllDecoded more := by
  simp only [AllDecoded, List.mem_append]
  grind

end

/-- Annotations are no part of what a node is made of. -/
@[simp] theorem Node.allDecoded_layer (node : Node) (top : Annotations) :
    AllDecoded (node.layer top).nodes ↔ AllDecoded node.nodes := by
  have hself : (node.layer top).Decoded ↔ node.Decoded :=
    ⟨fun h => ⟨h.kind, h.constant, h.enumeration, h.loc⟩, fun h => ⟨h.kind, h.constant, h.enumeration, h.loc⟩⟩
  rw [Node.nodes_eq, node.nodes_eq]
  simp only [AllDecoded, List.forall_mem_cons, hself]
  rfl

/-- A node without a constant is made of what is below it. -/
@[simp] theorem Node.allDecoded_of {kind : Kind} :
    AllDecoded (Node.of kind).nodes ↔ kind.Sayable ∧ AllDecoded kind.nodes := by
  rw [Node.nodes_eq]
  simp only [AllDecoded, List.forall_mem_cons]
  refine and_congr_left' ⟨fun h => h.kind, fun h => ⟨h, ?_, rfl, rfl⟩⟩
  simp [Node.of]

theorem Node.allDecoded_constant {kind : Kind} {value : Json} (h : kind.Holds value) :
    AllDecoded (Node.nodes { kind, constant := some value }) := by
  have hkind : kind.Sayable ∧ kind.nodes = [] := by
    cases kind <;> cases value <;> simp_all [Kind.Holds, Kind.Sayable, Kind.nodes]
  rw [Node.nodes_eq]
  simp only [AllDecoded, List.forall_mem_cons, hkind.2]
  refine ⟨⟨hkind.1, ?_, rfl, rfl⟩, by simp⟩
  simpa using h

theorem Node.allDecoded_any : AllDecoded Node.any.nodes := by
  simp [Node.any, Kind.Sayable, Kind.nodes]

/-- Below a node that is made of what is below it. -/
theorem Node.allDecoded_kind {node : Node} (h : AllDecoded node.nodes) : AllDecoded node.kind.nodes := by
  rw [node.nodes_eq] at h
  exact fun n hn => h n (List.mem_cons_of_mem _ hn)

@[simp] theorem allDecoded_getD_any (node : Option Node) :
    AllDecoded (node.getD .any).nodes ↔ AllDecoded (nodesOf node.toList) := by
  cases node with
  | none => simp [Node.allDecoded_any, nodesOf]
  | some n => simp [nodesOf]

@[simp] theorem allDecoded_map_layer (node : Option Node) (top : Annotations) :
    AllDecoded (nodesOf (node.map fun n => n.layer top).toList) ↔ AllDecoded (nodesOf node.toList) := by
  cases node <;> simp [nodesOf]

/-- The nodes in the shape of an object. -/
def Shape.nodes (shape : Shape) : List Node := nodesOfProperties shape.properties ++ shape.additional.nodes

/-- The nodes in the shape of a tuple. -/
def TupleShape.nodes (shape : TupleShape) : List Node := nodesOf shape.elements ++ shape.additional.nodes

namespace Shape

variable {shape base top : Shape}

@[simp] theorem allDecoded_node (shape : Shape) : AllDecoded shape.node.nodes ↔ AllDecoded shape.nodes := by
  simp [Shape.node, Kind.Sayable, Kind.nodes, Shape.nodes]

@[simp] theorem nodes_empty : Shape.nodes {} = [] := by
  simp [Shape.nodes, nodesOfProperties, Additional.nodes]

theorem allDecoded_put (h : AllDecoded shape.nodes) {node : Node} (hn : AllDecoded node.nodes) (name : String)
    (required : Bool) :
    AllDecoded (Shape.nodes { shape with properties := shape.properties.put name ⟨node, required⟩ }) := by
  simp only [Shape.nodes, allDecoded_append] at h ⊢
  refine ⟨fun n hm => ?_, h.2⟩
  obtain ⟨p, hp, hm⟩ := mem_nodesOfProperties.mp hm
  rcases mem_put hp with hp | rfl
  · exact h.1 n (mem_nodesOfProperties.mpr ⟨p, hp, hm⟩)
  · exact hn n hm

theorem allDecoded_extend (hb : AllDecoded base.nodes) (ht : AllDecoded top.nodes) :
    AllDecoded (base.extend top).nodes := by
  simp only [Shape.nodes, allDecoded_append] at hb ht ⊢
  refine ⟨fun n hm => ?_, ?_⟩
  · obtain ⟨p, hp, hm⟩ := mem_nodesOfProperties.mp hm
    rcases mem_extend hp with hp | hp
    · exact hb.1 n (mem_nodesOfProperties.mpr ⟨p, hp, hm⟩)
    · exact ht.1 n (mem_nodesOfProperties.mpr ⟨p, hp, hm⟩)
  · simp only [Shape.extend]
    split
    · exact ht.2
    · exact hb.2

/-- An operator makes no nodes. -/
theorem nodes_apply (op : Operator) (keys : List String) (shape : Shape) :
    (op.apply keys shape).nodes ⊆ shape.nodes := by
  intro n hn
  simp only [Shape.nodes, List.mem_append, mem_nodesOfProperties] at hn ⊢
  cases op
  case pick =>
    simp only [Operator.apply, List.mem_filter, Additional.nodes, List.not_mem_nil, or_false] at hn
    obtain ⟨p, ⟨hp, -⟩, hn⟩ := hn
    exact .inl ⟨p, hp, hn⟩
  case drop =>
    simp only [Operator.apply, List.mem_filter] at hn
    rcases hn with ⟨p, ⟨hp, -⟩, hn⟩ | hn
    · exact .inl ⟨p, hp, hn⟩
    · exact .inr hn
  case loosen =>
    simp only [Operator.apply, List.mem_map] at hn
    rcases hn with ⟨_, ⟨p, hp, rfl⟩, hn⟩ | hn
    · exact .inl ⟨p, hp, hn⟩
    · exact .inr hn

end Shape

/-- The way into other declarations makes nodes of them. -/
structure Beyond.Decodes (beyond : Beyond) (cx : Context) : Prop where
  inline : ∀ d span {log node log'}, Ends (beyond.inline cx d span) log node log' →
    AllDecoded (nodesOf node.toList)
  expand : ∀ d span {log shape log'}, Ends (beyond.expand cx d span) log (some shape) log' → AllDecoded shape.nodes

theorem allDecoded_ofRest {element : Node} (h : AllDecoded element.nodes) :
    AllDecoded (Additional.ofRest (some element)).nodes := by
  simp only [Additional.ofRest]
  split
  · simp [Additional.nodes]
  · exact h

namespace Decode

variable {beyond : Beyond} {cx : Context} {log log' : Log}

theorem unsupported_decoded {cause : Unsupported} {span : Option Span} {node : Option Node}
    (h : Ends (cx.unsupported cause span) log node log') : AllDecoded (nodesOf node.toList) := by
  obtain ⟨rfl, -⟩ := Context.unsupported_ends h
  simp [nodesOf]

section

variable (hb : beyond.Decodes cx)
include hb

theorem ResolveEnds.decoded {name : String} {span : Option Span} {node : Option Node}
    (h : ResolveEnds beyond cx name span log (.inlined node) log') : AllDecoded (nodesOf node.toList) := by
  cases h with
  | inlined _ _ _ hn => exact hb.inline _ span hn

theorem SubjectEnds.decoded {op : Operator} {subject : Node} {subjectSpan span : Option Span} {shape : Shape}
    (h : SubjectEnds beyond cx op subject subjectSpan span log (some shape) log') (hs : AllDecoded subject.nodes) :
    AllDecoded shape.nodes := by
  cases h with
  | own hshape =>
    have hinner := Node.allDecoded_kind hs
    rw [Node.shape?_eq_some_iff.mp hshape] at hinner
    exact hinner
  | named _ _ hf => exact hb.expand _ _ hf

theorem OperatorEnds.decoded {op : Operator} {subject : Node} {subjectSpan span : Option Span} {keys : Option TypeExpr}
    {node : Option Node} (h : OperatorEnds beyond cx op subject subjectSpan keys span log node log')
    (hs : AllDecoded subject.nodes) : AllDecoded (nodesOf node.toList) := by
  cases h with
  | @applied shape listed _ hshape _ =>
    have hnodes : AllDecoded (op.apply listed shape).nodes :=
      fun n hn => hshape.decoded hb hs n (shape.nodes_apply op listed hn)
    simpa [nodesOf] using hnodes
  | shapeless _ | unlisted _ _ _ => simp [nodesOf]

end

mutual

theorem type_decoded (hb : beyond.Decodes cx) (outer : Path) (t : TypeExpr) {log log' : Log} {node : Option Node}
    (h : Ends (Decode.type beyond cx outer t) log node log') : AllDecoded (nodesOf node.toList) := by
  match t with
  | ⟨.union all, doc, span⟩ | ⟨.intersection all, doc, span⟩ =>
    simp only [Decode.type, Ends.bind_iff, Ends.pure_iff] at h
    obtain ⟨nodes, log₁, hn, rfl, -⟩ := h
    simpa [nodesOf, Kind.Sayable, Kind.nodes] using types_decoded hb _ all hn
  | ⟨.parenthesized inner, doc, span⟩ =>
    simp only [Decode.type, Ends.bind_iff, Ends.pure_iff] at h
    obtain ⟨n, log₁, hn, rfl, -⟩ := h
    simpa using type_decoded hb _ inner hn
  | ⟨.keyword k, doc, span⟩ =>
    cases k <;> simp only [Decode.type, Ends.pure_iff] at h
    all_goals
      first
        | (obtain ⟨rfl, -⟩ := h
           simp [nodesOf, Node.any, Kind.Sayable, Kind.nodes, nodesOfProperties, Additional.nodes])
        | exact unsupported_decoded h
  | ⟨.literal l, doc, span⟩ =>
    cases l <;> simp only [Decode.type, Ends.pure_iff] at h
    case other text =>
      exact unsupported_decoded h
    case null =>
      obtain ⟨rfl, -⟩ := h
      simp [nodesOf, Kind.Sayable, Kind.nodes]
    case number n =>
      obtain ⟨rfl, -⟩ := h
      simpa [nodesOf] using Node.allDecoded_constant (show Kind.Holds .number (.number n) from trivial)
    case string s =>
      obtain ⟨rfl, -⟩ := h
      simpa [nodesOf] using Node.allDecoded_constant (show Kind.Holds .string (.string s) from trivial)
    case boolean b =>
      obtain ⟨rfl, -⟩ := h
      simpa [nodesOf] using Node.allDecoded_constant (show Kind.Holds .boolean (.bool b) from trivial)
  | ⟨.array element, doc, span⟩ =>
    simp only [Decode.type, Ends.bind_iff, Ends.pure_iff] at h
    obtain ⟨n, log₁, hn, rfl, -⟩ := h
    simpa [nodesOf, Kind.Sayable, Kind.nodes] using type_decoded hb _ element hn
  | ⟨.reference name true args, doc, span⟩ =>
    simp only [Decode.type] at h
    exact unsupported_decoded h
  | ⟨.reference name false [], doc, span⟩ =>
    cases name_ends h with
    | array _ => simp [nodesOf, Node.allDecoded_any, Kind.Sayable, Kind.nodes]
    | operator _ _ => simp [nodesOf]
    | ref _ _ _ => simp [nodesOf, Kind.Sayable, Kind.nodes]
    | inlined _ _ hr => exact hr.decoded hb
  | ⟨.reference name false (subject :: keys), doc, span⟩ =>
    cases application_ends h with
    | array _ _ hn => simpa [nodesOf, Kind.Sayable, Kind.nodes] using type_decoded hb _ subject hn
    | generic _ _ | wrongArity _ _ _ | subjectLeftOut _ _ | nothing _ _ _ => simp [nodesOf]
    | operator _ _ hn ho =>
      have hsubject := type_decoded hb _ subject hn
      simpa [nodesOf] using ho.decoded hb (by simpa [nodesOf] using hsubject)
  | ⟨.tuple all, doc, span⟩ =>
    simp only [Decode.type, Ends.bind_iff, Ends.pure_iff] at h
    obtain ⟨shape, log₁, hs, rfl, -⟩ := h
    obtain ⟨hnodes, hmin⟩ := elements_decoded hb outer 0 all hs
    simpa [nodesOf, Kind.Sayable, Kind.nodes, TupleShape.nodes, hmin] using hnodes
  | ⟨.object all, doc, span⟩ =>
    simp only [Decode.type, Ends.bind_iff, Ends.pure_iff] at h
    obtain ⟨shape, log₁, hs, rfl, -⟩ := h
    simpa [nodesOf] using members_decoded hb _ {} all (by simp) hs
  | ⟨.unsupported form, doc, span⟩ =>
    simp only [Decode.type] at h
    exact unsupported_decoded h

theorem types_decoded (hb : beyond.Decodes cx) (path : Path) (ts : List TypeExpr) {log log' : Log} {nodes : List Node}
    (h : Ends (types beyond cx path ts) log nodes log') : AllDecoded (nodesOf nodes) := by
  match ts with
  | [] =>
    simp only [types, Ends.pure_iff] at h
    obtain ⟨rfl, -⟩ := h
    simp [nodesOf]
  | t :: rest =>
    simp only [types, Ends.bind_iff, Ends.pure_iff] at h
    obtain ⟨node, log₁, hn, nodes, log₂, hr, rfl, -⟩ := h
    have ht := type_decoded hb path t hn
    have hrest := types_decoded hb path rest hr
    cases node with
    | none => exact hrest
    | some node => simpa [nodesOf, hrest] using ht

theorem elements_decoded (hb : beyond.Decodes cx) (outer : Path) (i : Nat) (es : List TupleElement) {log log' : Log}
    {shape : TupleShape} (h : Ends (elements beyond cx outer i es) log shape log') :
    AllDecoded shape.nodes ∧ shape.minItems ≤ shape.elements.length := by
  match es with
  | [] =>
    simp only [elements, Ends.pure_iff] at h
    obtain ⟨rfl, -⟩ := h
    simp [TupleShape.nodes, nodesOf, Additional.nodes]
  | ⟨.required, t, label⟩ :: rest | ⟨.optional, t, label⟩ :: rest =>
    simp only [elements, Ends.bind_iff, Ends.pure_iff] at h
    obtain ⟨node, log₁, hn, shape, log₂, hr, rfl, -⟩ := h
    have ht := type_decoded hb _ t hn
    obtain ⟨hrest, hmin⟩ := elements_decoded hb outer (i + 1) rest hr
    simp only [TupleShape.nodes, allDecoded_append] at hrest
    simp [TupleShape.nodes, nodesOf, ht, hrest, hmin]
  | [⟨.rest, t, label⟩] =>
    cases rest_ends h with
    | @array node element _ hk hn =>
      have hinner : AllDecoded node.kind.nodes :=
        Node.allDecoded_kind (by simpa [nodesOf] using type_decoded hb _ t hn)
      rw [hk] at hinner
      simpa [TupleShape.nodes, nodesOf] using allDecoded_ofRest hinner
    | other _ _ _ | leftOut _ => simp [TupleShape.nodes, nodesOf, Additional.nodes]
  | ⟨.rest, t, label⟩ :: next :: rest =>
    simp only [elements, Ends.bind_iff] at h
    obtain ⟨result, log₁, hu, h⟩ := h
    exact elements_decoded hb outer (i + 1) (next :: rest) h

theorem members_decoded (hb : beyond.Decodes cx) (path : Path) (shape : Shape) (ms : List Member) {log log' : Log}
    {shape' : Shape} (hs : AllDecoded shape.nodes) (h : Ends (members beyond cx path shape ms) log shape' log') :
    AllDecoded shape'.nodes := by
  match ms with
  | [] =>
    simp only [members, Ends.pure_iff] at h
    exact h.1 ▸ hs
  | .property name optional (some t) doc span :: rest =>
    simp only [members, Ends.bind_iff] at h
    obtain ⟨node, log₁, hn, h⟩ := h
    have ht := type_decoded hb _ t hn
    exact members_decoded hb path _ rest (Shape.allDecoded_put hs (by simpa using ht) name _) h
  | .property _ _ none _ _ :: rest =>
    simp only [members] at h
    exact members_decoded hb path shape rest hs h
  | .index _ key value _ span :: rest =>
    simp only [members] at h
    split at h
    · rw [Ends.bind_iff] at h
      obtain ⟨node, log₁, hn, h⟩ := h
      have ht := type_decoded hb _ value hn
      refine members_decoded hb path _ rest ?_ h
      simp only [Shape.nodes, allDecoded_append] at hs ⊢
      exact ⟨hs.1, by simpa [Additional.nodes] using ht⟩
    · rw [Ends.bind_iff] at h
      obtain ⟨u, log₁, hw, h⟩ := h
      exact members_decoded hb path shape rest hs h
  | .other _ :: rest =>
    simp only [members] at h
    exact members_decoded hb path shape rest hs h

end

section

variable (hb : beyond.Decodes cx)
include hb

theorem declaration_decoded {d : Declaration} {node : Option Node} (h : Ends (declaration beyond cx d) log node log') :
    AllDecoded (nodesOf node.toList) := by
  cases declaration_ends h with
  | generic _ _ => simp [nodesOf]
  | typeAlias _ _ hn => simpa [nodesOf] using type_decoded hb _ _ hn
  | @interface _ parents own _ _ _ _ hp ho =>
    have hparents := types_decoded hb _ _ hp
    have hown : AllDecoded own.nodes := members_decoded hb _ {} _ (by simp) ho
    simp only [Option.toList_some, nodesOf, List.append_nil, Node.allDecoded_layer]
    split
    · simpa using hown
    · simp only [Node.allDecoded_of, Kind.Sayable, Kind.nodes, true_and]
      intro n hn
      obtain ⟨m, hm, hn⟩ := mem_nodesOf.mp hn
      rcases List.mem_append.mp hm with hm | hm
      · exact hparents n (mem_nodesOf.mpr ⟨m, hm, hn⟩)
      · rw [List.mem_singleton.mp hm] at hn
        exact (Shape.allDecoded_node own).mpr hown n hn

theorem InheritedEnds.decoded {parents : List TypeExpr} {shape shape' : Shape}
    (h : InheritedEnds beyond cx shape parents log shape' log') (hs : AllDecoded shape.nodes) :
    AllDecoded shape'.nodes := by
  induction h with
  | nil => exact hs
  | parent _ _ hf _ ih => exact ih (Shape.allDecoded_extend hs (hb.expand _ _ hf))
  | shapeless _ _ _ _ ih | passedOver _ _ ih => exact ih hs

theorem shape_decoded {d : Declaration} {shape : Shape} (h : Ends (Decode.shape beyond cx d) log (some shape) log') :
    AllDecoded shape.nodes := by
  cases shape_ends h with
  | @object _ node _ _ _ hshape hn =>
    have hinner := Node.allDecoded_kind (show AllDecoded node.nodes by simpa [nodesOf] using declaration_decoded hb hn)
    rw [Node.shape?_eq_some_iff.mp hshape] at hinner
    exact hinner
  | interface _ _ hbase hown =>
    exact Shape.allDecoded_extend (hbase.decoded hb (by simp)) (members_decoded hb _ {} _ (by simp) hown)

end

end Decode

/-- Declarations inside one another are made into such nodes at any depth. -/
theorem Beyond.within_decodes (depth : Nat) (cx : Context) : (within depth).Decodes cx := by
  induction depth generalizing cx with
  | zero =>
    refine ⟨fun d span _ _ _ h => ?_, fun d span _ _ _ h => ?_⟩ <;> exact (Ends.throw_iff.mp h).elim
  | succ depth ih =>
    refine ⟨fun d span _ _ _ h => ?_, fun d span _ _ _ h => ?_⟩
    · obtain ⟨inner, hinner, -, h⟩ := Beyond.inline_ends h
      cases hinner
      exact Decode.declaration_decoded (ih _) h
    · obtain ⟨inner, hinner, -, h⟩ := Beyond.expand_ends h
      cases hinner
      exact Decode.shape_decoded (ih _) h

namespace Convert

variable {cx : Context} {p : Progress} {log log' : Log}

/-- The types so far are made from declarations. -/
def TypesDecoded (p : Progress) : Prop := ∀ t ∈ p.types, AllDecoded t.node.nodes

theorem typesDecoded_progress {hoistedAway : List String} (h : Ends (progress cx hoistedAway) log p log') :
    TypesDecoded p := by
  refine forall_types_progress (fun d _ node _ _ hnode => ?_) h
  simpa [nodesOf] using Decode.declaration_decoded (Beyond.within_decodes _ _) hnode

end Convert

/-- A document of this version without unsupported nodes is written, whatever prints its statements. -/
theorem Document.emitWith_total (d : Document) (hversion : d.version = currentVersion)
    (h : ∀ t ∈ d.types, ∀ n ∈ t.node.nodes, n.kind ≠ .unsupported) (print : Statement → String)
    (options : WriteOptions) :
    ∃ text, d.emitWith print options = .ok ⟨text, d.types.map NamedType.name, []⟩ := by
  obtain ⟨placed, hp⟩ := d.declarations_total options h
  rw [emitWith, if_neg (by simp [hversion]), hp]
  exact ⟨_, rfl⟩

/-- What is read can be written. No node of a document that was read is of a kind that declarations do not say, none has
an enumeration or a location, constants stand only on strings, numbers and booleans and are of their kind, and no tuple
requires more elements than it has; and the document is written, whatever the options and whatever prints it. -/
theorem SourceFile.convert_encodable (file : SourceFile) (source : String) (options : ReadOptions)
    {conversion : Conversion Document} (h : (file.convert source options).result = .ok conversion) :
    (∀ t ∈ conversion.data.types, ∀ n ∈ t.node.nodes,
      n.kind ≠ .integer ∧ n.kind ≠ .unsupported ∧ n.enumeration = none ∧ n.loc = none ∧
      (∀ value ∈ n.constant,
        (n.kind = .string ∧ ∃ s, value = .string s) ∨ (n.kind = .number ∧ ∃ x, value = .number x) ∨
          (n.kind = .boolean ∧ ∃ b, value = .bool b)) ∧
      ∀ elements more minItems, n.kind = .tuple elements more minItems → minItems ≤ elements.length) ∧
    ∀ (print : Statement → String) (writeOptions : WriteOptions),
      ∃ text, conversion.data.emitWith print writeOptions = .ok ⟨text, conversion.converted, []⟩ := by
  obtain ⟨-, p, log, hends, rfl⟩ := convert_ends h
  have hdecoded := Convert.typesDecoded_progress hends
  refine ⟨fun t ht n hn => ?_, fun print writeOptions => ?_⟩
  · obtain ⟨hkind, hconstant, henum, hloc⟩ := hdecoded t ht n hn
    refine ⟨fun hk => ?_, fun hk => ?_, henum, hloc, fun value hv => ?_, fun elements more minItems hk => ?_⟩
    · rw [hk] at hkind
      exact hkind
    · rw [hk] at hkind
      exact hkind
    · have hholds := hconstant value hv
      cases hk : n.kind <;> rw [hk] at hholds <;> cases value <;> simp_all [Kind.Holds]
    · rw [hk] at hkind
      exact hkind
  · refine Document.emitWith_total ⟨_, p.types⟩ rfl (fun t ht n hn hk => ?_) print writeOptions
    have hkind := (hdecoded t ht n hn).kind
    rw [hk] at hkind
    exact hkind

/-- Operators and tuples read from an interface that extends a part of another. -/
theorem SourceFile.convert_encodable_parcel :
    let file : SourceFile := ⟨[
      .interface {
        name := "Parcel", exported := true
        heritage := [.of (.reference "Partial" false [.reference "Sized"])]
        members := [.property "label" false
          (some (.of (.tuple [⟨.required, .keyword .string, none⟩, ⟨.optional, .keyword .number, none⟩,
            ⟨.rest, .of (.array (.keyword .boolean)), none⟩]))) none none] },
      .interface { name := "Sized", members := [.property "size" false (some (.literal (.string "big"))) none none] },
      .typeAlias {
        name := "Plain", exported := true
        value := .of (.reference "Omit" false [.reference "Parcel", .literal (.string "label")]) }]⟩
    ∃ conversion, (file.convert "" {}).result = .ok conversion ∧ conversion.converted = ["Parcel", "Plain"] ∧
      ∃ text, conversion.data.emitWith (fun _ => "") {} = .ok ⟨text, ["Parcel", "Plain"], []⟩ := by
  intro file
  obtain ⟨conversion, h, hnames⟩ :=
    Conversion.exists_of_names (show (file.convert "" {}).result.toOption.map Conversion.converted =
      some ["Parcel", "Plain"] by decide +kernel)
  obtain ⟨-, hwritten⟩ := file.convert_encodable "" {} h
  refine ⟨conversion, h, hnames, ?_⟩
  rw [← hnames]
  exact hwritten _ _

end TypeSchema
