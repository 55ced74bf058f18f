import TypeSchema.Proofs.ReadBack

namespace TypeSchema

theorem bind_ok {α β : Type} {x : Except Error α} {f : α → Except Error β} {b : β} :
    x >>= f = .ok b ↔ ∃ a, x = .ok a ∧ f a = .ok b := by
  cases x <;> simp [bind, Except.bind]

theorem pure_ok {α : Type} {a : α} : (pure a : Except Error α) = .ok a := rfl

/-- The own members of a record; without an object there are none. -/
def Encode.ownMembers (w : Wording) (path : Path) : Option Node → Except Error (List Member)
  | some o => objectMembers w path o
  | none => .ok []

/-- The names of `later` are new. -/
def Shape.Lacks (shape : Shape) (names : List String) : Prop :=
  ∀ name ∈ names, name ∉ shape.properties.names

theorem Shape.lacks_put {shape : Shape} {name : String} {names : List String} (p : Property)
    (h : shape.Lacks (name :: names)) (hn : (name :: names).Nodup) :
    Shape.Lacks { shape with properties := shape.properties ++ [(name, p)] } names := by
  intro other ho hm
  simp only [Entries.names, List.map_append, List.map_cons, List.map_nil, List.mem_append,
    List.mem_singleton] at hm
  rcases hm with hm | rfl
  · exact h other (List.mem_cons_of_mem _ ho) hm
  · exact (List.nodup_cons.mp hn).1 ho

namespace ReadBack

variable (beyond : Beyond) (cx : Context)

theorem ofType_constantType (value : Json) :
    Ancestor.ofType (constantType value).kind = .ofConstant value := by
  cases value <;> rfl

theorem doc_constantType (value : Json) : (constantType value).doc = none := by
  cases value <;> rfl

/-- A property with a new name comes after those that were read before. -/
theorem members_property {path : Path} {shape : Shape} {name : String} {t : TypeExpr} {node : Node}
    (ht : Decode.type beyond cx (.property name :: path) t = pure (some node))
    (hn : name ∉ shape.properties.names) (optional : Bool) (doc : Option String) (span : Option Span)
    (rest : List Member) :
    Decode.members beyond cx path shape (.property name optional (some t) doc span :: rest) =
      Decode.members beyond cx path
        { shape with properties :=
            shape.properties ++ [(name, ⟨under doc (.property name :: path) node, !optional⟩)] } rest := by
  rw [Decode.members, ht, pure_bind]
  simp only [Option.getD_some, Entries.put_of_not_mem hn, under]

mutual

theorem type_constant (outer : Path) (value : Json) (t : TypeExpr)
    (ht : t.kind = (constantType value).kind) (h : value.Distinct) :
    Decode.type beyond cx outer t =
      pure (some (under t.doc (.ofConstant value :: outer) (constant (.ofConstant value :: outer) value))) := by
  obtain ⟨kind, doc, span⟩ := t
  subst ht
  match value with
  | .null => rfl
  | .bool _ => rfl
  | .number _ => rfl
  | .string _ => rfl
  | .array items =>
    have hi := elements_constants outer 0 items h
    simp [constantType, TypeExpr.of, Decode.type, hi, constant, under, Ancestor.ofType, Ancestor.ofConstant]
  | .object fields =>
    have hf := members_fields (.object :: outer) {} fields (by simp [Shape.Lacks, Entries.names]) h.1 h.2
    simp [constantType, TypeExpr.of, Decode.type, hf, constant, under, Ancestor.ofType, Ancestor.ofConstant,
      Shape.node]

theorem elements_constants (outer : Path) (i : Nat) (items : List Json) (h : Json.DistinctItems items) :
    Decode.elements beyond cx outer i (constantElements items) =
      pure { elements := constants outer i items, minItems := items.length } := by
  match items with
  | [] => rfl
  | value :: rest =>
    have hv := type_constant (.tuple (some i) :: outer) value _ rfl h.1
    have hr := elements_constants outer (i + 1) rest h.2
    simp [constantElements, TupleElement.plain, Decode.elements, hv, hr, constants, doc_constantType]

theorem members_fields (path : Path) (shape : Shape) (fields : List (String × Json))
    (hs : shape.Lacks (fields.map Prod.fst)) (hn : (fields.map Prod.fst).Nodup) (h : Json.DistinctFields fields) :
    Decode.members beyond cx path shape (constantMembers fields) =
      pure { shape with properties := shape.properties ++ fieldProperties path fields } := by
  match fields with
  | [] => simp [constantMembers, Decode.members, fieldProperties]
  | (name, value) :: rest =>
    have hv := type_constant (.property name :: path) value _ rfl h.1
    rw [doc_constantType] at hv
    rw [constantMembers, members_property beyond cx hv (hs name List.mem_cons_self)]
    have hr := fun p => members_fields path _ rest (Shape.lacks_put p hs hn) (List.nodup_cons.mp hn).2 h.2
    rw [hr]
    simp [fieldProperties]

end

variable (w : Wording) (rename : String → String)

/-- A name that is no operator, and leads to the declaration that `rename` names. -/
def Leads (name : String) : Prop :=
  name ≠ "Array" ∧ Operator.ofName? name = none ∧
    ∀ span, Decode.resolve beyond cx name span = pure (.ref (rename name))

theorem type_any (outer : Path) :
    Decode.type beyond cx outer w.any = pure (some (under none (.other :: outer) .any)) := by
  cases hw : w.useUnknown <;> simp [Wording.any, hw, TypeExpr.keyword, TypeExpr.of, Decode.type, under] <;> rfl

variable {w rename}

theorem encode_constant {path : Path} {kind : Kind} (h : kind.takesConstant) (value : Json) (e a l) :
    Encode.type w path ⟨kind, some value, e, a, l⟩ = .ok (constantType value) := by
  cases kind <;> simp_all [Kind.takesConstant, Encode.type]

theorem encode_enumeration {path : Path} {kind : Kind} (h : kind.takesConstant) (values : List Json) (a l) :
    Encode.type w path ⟨kind, none, some values, a, l⟩ = .ok (.of (.union (constantTypes values))) := by
  cases kind <;> simp_all [Kind.takesConstant, Encode.type]

theorem types_constants (path : Path) (values : List Json) (h : Json.DistinctItems values) :
    Decode.types beyond cx path (constantTypes values) = pure (variants path values) := by
  induction values with
  | nil => rfl
  | cons value rest ih =>
    have hv := type_constant beyond cx path value _ rfl h.1
    have hr := ih h.2
    simp only [constantTypes] at hr ⊢
    simp [Decode.types, hv, hr, variants, doc_constantType]

/-- What a node is encoded to has no comment of its own, and stands for the same step. -/
theorem encode_shape {path : Path} {node : Node} {t : TypeExpr} (h : Encode.type w path node = .ok t) :
    t.doc = none ∧ Ancestor.ofType t.kind = .ofNode node := by
  obtain ⟨kind, constant, enumeration, annotations, loc⟩ := node
  cases hk : kind.takesConstant with
  | true =>
    cases constant with
    | some value =>
      rw [encode_constant hk, Except.ok.injEq] at h
      subst h
      exact ⟨doc_constantType value, by rw [ofType_constantType, ofNode_constant hk]⟩
    | none =>
      cases enumeration with
      | some values =>
        rw [encode_enumeration hk, Except.ok.injEq] at h
        subst h
        exact ⟨rfl, (ofNode_enumeration hk values annotations loc).symm⟩
      | none =>
        cases kind <;> simp only [Kind.takesConstant, Bool.false_eq_true] at hk
        all_goals simp only [Encode.type, bind_ok, pure_ok, Except.ok.injEq, reduceCtorEq] at h
        all_goals
          first | subst h | obtain ⟨_, _, rfl⟩ := h | obtain ⟨_, _, _, _, rfl⟩ := h
          exact ⟨rfl, rfl⟩
  | false =>
    cases kind <;> simp only [Kind.takesConstant, reduceCtorEq] at hk
    all_goals
      simp only [Encode.type, bind_ok, pure_ok, Except.ok.injEq] at h
      first | subst h | obtain ⟨_, _, rfl⟩ := h
      exact ⟨rfl, rfl⟩

/-- A node that its constant stands for. -/
theorem type_of_constant (outer : Path) {kind : Kind} (hk : kind.takesConstant) {value : Json} {e a l}
    {t' : TypeExpr} (h : Encode.type w (.ofNode ⟨kind, some value, e, a, l⟩ :: outer) ⟨kind, some value, e, a, l⟩ =
      .ok t') (hd : value.Distinct) (t : TypeExpr) (ht : t.kind = t'.kind) :
    Decode.type beyond cx outer t =
      pure (some (under t.doc (.ofNode ⟨kind, some value, e, a, l⟩ :: outer)
        (content rename (.ofNode ⟨kind, some value, e, a, l⟩ :: outer) ⟨kind, some value, e, a, l⟩))) := by
  rw [encode_constant hk, Except.ok.injEq] at h
  subst h
  rw [ofNode_constant hk, content_constant hk]
  exact type_constant beyond cx outer value t ht hd

/-- A node that its enumeration stands for. -/
theorem type_of_enumeration (outer : Path) {kind : Kind} (hk : kind.takesConstant) {values : List Json} {a l}
    {t' : TypeExpr} (h : Encode.type w (.ofNode ⟨kind, none, some values, a, l⟩ :: outer)
      ⟨kind, none, some values, a, l⟩ = .ok t') (hd : Json.DistinctItems values) (t : TypeExpr)
    (ht : t.kind = t'.kind) :
    Decode.type beyond cx outer t =
      pure (some (under t.doc (.ofNode ⟨kind, none, some values, a, l⟩ :: outer)
        (content rename (.ofNode ⟨kind, none, some values, a, l⟩ :: outer) ⟨kind, none, some values, a, l⟩))) := by
  rw [encode_enumeration hk, Except.ok.injEq] at h
  subst h
  rw [ofNode_enumeration hk, content_enumeration hk]
  obtain ⟨_, doc, span⟩ := t
  subst ht
  simp [TypeExpr.of, Decode.type, Ancestor.ofType, types_constants beyond cx _ values hd, under]

theorem Leads.type {name : String} (h : Leads beyond cx rename name) (outer : Path) (doc : Option String)
    (span : Option Span) :
    Decode.type beyond cx outer ⟨.reference name false [], doc, span⟩ =
      pure (some (under doc (.other :: outer) (.of (.ref (rename name))))) := by
  simp [Decode.type, h.1, h.2.1, h.2.2 span, Ancestor.ofType, under]

mutual

theorem type_encoded (outer : Path) (node : Node) (t' : TypeExpr)
    (h : Encode.type w (.ofNode node :: outer) node = .ok t') (hd : ∀ n ∈ node.nodes, n.Distinct)
    (hr : ∀ r ∈ node.refs, Leads beyond cx rename r) (t : TypeExpr) (ht : t.kind = t'.kind) :
    Decode.type beyond cx outer t =
      pure (some (under t.doc (.ofNode node :: outer) (content rename (.ofNode node :: outer) node))) := by
  have hself := hd node node.self_mem_nodes
  rw [node.nodes_eq] at hd
  rw [node.refs_eq] at hr
  match node with
  | ⟨.and all, c, e, a, l⟩ =>
    simp only [Encode.type, bind_ok, pure_ok, Except.ok.injEq] at h
    obtain ⟨ts, hts, rfl⟩ := h
    obtain ⟨_, doc, span⟩ := t
    subst ht
    have hm := types_encoded _ all ts hts (fun n hn => hd n (List.mem_cons_of_mem _ hn)) hr
    simp [TypeExpr.of, Decode.type, Ancestor.ofType, Ancestor.ofNode, content, under] at hm ⊢
    simp [hm]
  | ⟨.or all, c, e, a, l⟩ =>
    simp only [Encode.type, bind_ok, pure_ok, Except.ok.injEq] at h
    obtain ⟨ts, hts, rfl⟩ := h
    obtain ⟨_, doc, span⟩ := t
    subst ht
    have hm := types_encoded _ all ts hts (fun n hn => hd n (List.mem_cons_of_mem _ hn)) hr
    simp [TypeExpr.of, Decode.type, Ancestor.ofType, Ancestor.ofNode, content, under] at hm ⊢
    simp [hm]
  | ⟨.null, c, e, a, l⟩ =>
    obtain ⟨_, doc, span⟩ := t
    cases h
    subst ht
    rfl
  | ⟨.object named more, none, none, a, l⟩ =>
    simp only [Encode.type, bind_ok, pure_ok, Except.ok.injEq] at h
    obtain ⟨named', hn, more', hm, rfl⟩ := h
    obtain ⟨_, doc, span⟩ := t
    subst ht
    simp only [Kind.nodes, List.mem_cons, List.mem_append] at hd
    simp only [List.mem_append] at hr
    have hp := members_encoded (.object :: outer) {} named named' hn (by simp [Shape.Lacks, Entries.names])
      hself.kind (fun n hn => hd n (.inr (.inl hn))) (fun r hn => hr r (.inl hn)) more'
    have ha := additional_encoded (.object :: outer) more more' hm (fun n hn => hd n (.inr (.inr hn)))
      (fun r hn => hr r (.inr hn))
    simp [TypeExpr.of, Decode.type, Ancestor.ofType, Ancestor.ofNode, content, under, hp, ha, Shape.node]
  | ⟨.array el, none, none, a, l⟩ =>
    simp only [Encode.type, bind_ok, pure_ok, Except.ok.injEq] at h
    obtain ⟨item, hi, rfl⟩ := h
    obtain ⟨_, doc, span⟩ := t
    subst ht
    have hm := type_encoded _ el item hi (fun n hn => hd n (List.mem_cons_of_mem _ hn)) hr item rfl
    rw [(encode_shape hi).1] at hm
    simp [TypeExpr.of, Decode.type, Ancestor.ofType, Ancestor.ofNode, content, under] at hm ⊢
    simp [hm]
  | ⟨.tuple items more _, none, none, a, l⟩ =>
    simp only [Encode.type, bind_ok, pure_ok, Except.ok.injEq] at h
    obtain ⟨items', hi, more', hm, rfl⟩ := h
    obtain ⟨_, doc, span⟩ := t
    subst ht
    simp only [Kind.nodes, List.mem_cons, List.mem_append] at hd
    simp only [List.mem_append] at hr
    have hm' := rest_encoded outer _ more more' hm (fun n hn => hd n (.inr (.inr hn)))
      (fun r hn => hr r (.inr hn))
    have hi' := elements_encoded outer 0 items items' hi (fun n hn => hd n (.inr (.inl hn)))
      (fun r hn => hr r (.inl hn)) more' _ (by rw [Nat.zero_add]; exact hm')
    simp [TypeExpr.of, Decode.type, Ancestor.ofType, Ancestor.ofNode, content, under, hi']
  | ⟨.ref name, none, none, a, l⟩ =>
    obtain ⟨_, doc, span⟩ := t
    cases h
    subst ht
    exact (hr name List.mem_cons_self).type beyond cx outer doc span
  | ⟨.string, none, none, a, l⟩ | ⟨.number, none, none, a, l⟩ | ⟨.integer, none, none, a, l⟩
  | ⟨.boolean, none, none, a, l⟩ =>
    obtain ⟨_, doc, span⟩ := t
    cases h
    subst ht
    rfl
  | ⟨.any, none, none, a, l⟩ =>
    obtain ⟨_, doc, span⟩ := t
    cases h
    subst ht
    cases hw : w.useUnknown <;> simp [Wording.any, hw, TypeExpr.keyword, TypeExpr.of] <;> rfl
  | ⟨.unsupported, none, none, a, l⟩ => simp [Encode.type] at h
  | ⟨.object _ _, some v, e, a, l⟩ | ⟨.array _, some v, e, a, l⟩ | ⟨.tuple _ _ _, some v, e, a, l⟩
  | ⟨.ref _, some v, e, a, l⟩ | ⟨.string, some v, e, a, l⟩ | ⟨.number, some v, e, a, l⟩ | ⟨.integer, some v, e, a, l⟩
  | ⟨.boolean, some v, e, a, l⟩ | ⟨.any, some v, e, a, l⟩ | ⟨.unsupported, some v, e, a, l⟩ =>
    exact type_of_constant beyond cx outer rfl h (hself.constant v rfl) t ht
  | ⟨.object _ _, none, some vs, a, l⟩ | ⟨.array _, none, some vs, a, l⟩ | ⟨.tuple _ _ _, none, some vs, a, l⟩
  | ⟨.ref _, none, some vs, a, l⟩ | ⟨.string, none, some vs, a, l⟩ | ⟨.number, none, some vs, a, l⟩
  | ⟨.integer, none, some vs, a, l⟩ | ⟨.boolean, none, some vs, a, l⟩ | ⟨.any, none, some vs, a, l⟩
  | ⟨.unsupported, none, some vs, a, l⟩ =>
    exact type_of_enumeration beyond cx outer rfl h (hself.enumeration vs rfl) t ht

theorem types_encoded (path : Path) (nodes : List Node) (ts : List TypeExpr)
    (h : Encode.members w path nodes = .ok ts) (hd : ∀ n ∈ nodesOf nodes, n.Distinct)
    (hr : ∀ r ∈ refsOf nodes, Leads beyond cx rename r) :
    Decode.types beyond cx path ts = pure (members rename path nodes) := by
  match nodes with
  | [] =>
    cases h
    rfl
  | node :: others =>
    simp only [Encode.members, bind_ok, pure_ok, Except.ok.injEq] at h
    obtain ⟨first, hf, ts', hts, rfl⟩ := h
    simp only [nodesOf, refsOf_cons, List.mem_append] at hd hr
    have hn := type_encoded path node first hf (fun n hn => hd n (.inl hn)) (fun r hn => hr r (.inl hn))
      { first with doc := commentOf node.annotations (Path.title? (.ofNode node :: path)) } rfl
    have ho := types_encoded path others ts' hts (fun n hn => hd n (.inr hn)) (fun r hn => hr r (.inr hn))
    simp [Decode.types, hn, ho, members]

/-- Elements come before whatever `more` is read as behind them. -/
theorem elements_encoded (outer : Path) (i : Nat) (nodes : List Node) (es : List TupleElement)
    (h : Encode.elements w outer i nodes = .ok es) (hd : ∀ n ∈ nodesOf nodes, n.Distinct)
    (hr : ∀ r ∈ refsOf nodes, Leads beyond cx rename r) (more : List TupleElement) (shape : TupleShape)
    (hm : Decode.elements beyond cx outer (i + nodes.length) more = pure shape) :
    Decode.elements beyond cx outer i (es ++ more) =
      pure { shape with
        elements := elements rename outer i nodes ++ shape.elements
        minItems := nodes.length + shape.minItems } := by
  match nodes with
  | [] =>
    cases h
    simpa [elements] using hm
  | node :: others =>
    simp only [Encode.elements, bind_ok, pure_ok, Except.ok.injEq] at h
    obtain ⟨first, hf, es', hes, rfl⟩ := h
    simp only [nodesOf, refsOf_cons, List.mem_append] at hd hr
    have hn := type_encoded (.tuple (some i) :: outer) node first hf (fun n hn => hd n (.inl hn))
      (fun r hn => hr r (.inl hn)) first rfl
    have ho := elements_encoded outer (i + 1) others es' hes (fun n hn => hd n (.inr hn))
      (fun r hn => hr r (.inr hn)) more shape (by rw [← hm, List.length_cons]; congr 1; omega)
    rw [(encode_shape hf).1] at hn
    simp [TupleElement.plain, Decode.elements, hn, ho, elements, Nat.add_right_comm]

theorem rest_encoded (outer : Path) (i : Nat) (more : Additional) (es : List TupleElement)
    (h : Encode.restElements w outer i more = .ok es) (hd : ∀ n ∈ more.nodes, n.Distinct)
    (hr : ∀ r ∈ more.refs, Leads beyond cx rename r) :
    Decode.elements beyond cx outer i es = pure { additional := rest rename outer i more } := by
  match more with
  | .allowed false =>
    cases h
    rfl
  | .allowed true =>
    cases h
    simp [Decode.elements, TypeExpr.of, Decode.type, type_any, Ancestor.ofType, rest, under, Node.layer, Node.of,
      Additional.ofRest, Node.any, Kind.isAny]
  | .node node =>
    simp only [Encode.restElements, bind_ok, pure_ok, Except.ok.injEq] at h
    obtain ⟨item, hi, rfl⟩ := h
    have hn := type_encoded (.array :: .rest :: .tuple (some i) :: outer) node item hi
      (by simpa [Additional.nodes] using hd) (by simpa using hr) item rfl
    rw [(encode_shape hi).1] at hn
    simp [Decode.elements, TypeExpr.of, Decode.type, Ancestor.ofType, hn, rest, Node.layer, Node.of]

/-- Properties come behind those that were read before, and before whatever else is read. -/
theorem members_encoded (path : Path) (shape : Shape) (named : List (String × Property)) (ms : List Member)
    (h : Encode.propertyMembers w path named = .ok ms) (hs : shape.Lacks (named.map Prod.fst))
    (hn : (named.map Prod.fst).Nodup) (hd : ∀ n ∈ nodesOfProperties named, n.Distinct)
    (hr : ∀ r ∈ refsOfProperties named, Leads beyond cx rename r) (more : List Member) :
    Decode.members beyond cx path shape (ms ++ more) =
      Decode.members beyond cx path
        { shape with properties := shape.properties ++ properties rename path named } more := by
  match named with
  | [] =>
    cases h
    simp [properties]
  | (name, ⟨node, required⟩) :: others =>
    simp only [Encode.propertyMembers, bind_ok, pure_ok, Except.ok.injEq] at h
    obtain ⟨value, hv, ms', hms, rfl⟩ := h
    simp only [nodesOfProperties, refsOfProperties_cons, List.mem_append] at hd hr
    have hf := type_encoded (.property name :: path) node value hv (fun n hn => hd n (.inl hn))
      (fun r hn => hr r (.inl hn)) value rfl
    rw [(encode_shape hv).1] at hf
    have ho := fun p => members_encoded path _ others ms' hms (Shape.lacks_put p hs hn)
      (List.nodup_cons.mp hn).2 (fun n hn => hd n (.inr hn)) (fun r hn => hr r (.inr hn)) more
    rw [List.cons_append, members_property beyond cx hf (hs name List.mem_cons_self), ho]
    simp [properties]

theorem additional_encoded (path : Path) (more : Additional) (ms : List Member)
    (h : Encode.indexMembers w path more = .ok ms) (hd : ∀ n ∈ more.nodes, n.Distinct)
    (hr : ∀ r ∈ more.refs, Leads beyond cx rename r) (named : Entries Property) :
    Decode.members beyond cx path { properties := named } ms =
      pure { properties := named, additional := additional rename path more } := by
  match more with
  | .allowed false =>
    cases h
    rfl
  | .allowed true =>
    cases h
    simp [indexMember, Decode.members, TypeExpr.keyword, TypeExpr.of, type_any, additional]
  | .node node =>
    simp only [Encode.indexMembers, bind_ok, pure_ok, Except.ok.injEq] at h
    obtain ⟨value, hv, rfl⟩ := h
    have hn := type_encoded (.other :: path) node value hv (by simpa [Additional.nodes] using hd)
      (by simpa using hr) value rfl
    rw [(encode_shape hv).1] at hn
    simp [indexMember, Decode.members, TypeExpr.keyword, TypeExpr.of, hn, additional]

end

/-- The parts of a record are members of the intersection that it stands for. -/
theorem heritage_mem {roots : List NamedType} {members : List Node} {h : Heritage}
    (hh : heritage? roots members = some h) :
    (∀ o ∈ h.object, o ∈ members ∧ o.kind.isObject) ∧
      ∀ name ∈ h.parents, ∃ m ∈ members, m.kind = .ref name ∧ namesObject roots name := by
  induction members generalizing h with
  | nil =>
    cases hh
    simp
  | cons node rest ih =>
    simp only [heritage?, Option.bind_eq_bind, Option.bind_eq_some_iff] at hh
    obtain ⟨h', hrest, hh⟩ := hh
    obtain ⟨ho, hp⟩ := ih hrest
    have hp' : ∀ name ∈ h'.parents, ∃ m ∈ node :: rest, m.kind = .ref name ∧ namesObject roots name := by
      intro name hn
      obtain ⟨m, hm, hk⟩ := hp name hn
      exact ⟨m, List.mem_cons_of_mem _ hm, hk⟩
    split at hh
    · rename_i hk
      split at hh
      · cases hh
      · cases hh
        exact ⟨by simp [hk, Kind.isObject], hp'⟩
    · rename_i name hk
      split at hh
      · rename_i hn
        cases hh
        refine ⟨fun o h => ⟨List.mem_cons_of_mem _ (ho o h).1, (ho o h).2⟩, ?_⟩
        intro other hm
        rcases List.mem_cons.mp hm with rfl | hm
        · exact ⟨node, List.mem_cons_self, hk, hn⟩
        · exact hp' other hm
      · cases hh
    · cases hh

/-- The parts of a record stand in the tree of its node. -/
theorem record_mem {roots : List NamedType} {node : Node} {h : Heritage} (hh : record? roots node = some h) :
    (∀ o ∈ h.object, o.kind.isObject ∧ ∀ n ∈ o.nodes, n ∈ node.nodes) ∧
      ∀ name ∈ h.parents, name ∈ node.refs := by
  unfold record? at hh
  split at hh
  · rename_i members hk
    obtain ⟨ho, hp⟩ := heritage_mem hh
    have hsub : ∀ m ∈ members, ∀ n ∈ m.nodes, n ∈ node.nodes := by
      intro m hm n hn
      rw [node.nodes_eq, hk]
      exact List.mem_cons_of_mem _ (mem_nodesOf.mpr ⟨m, hm, hn⟩)
    refine ⟨fun o hm => ⟨(ho o hm).2, hsub o (ho o hm).1⟩, fun name hm => ?_⟩
    obtain ⟨m, hm, hk, -⟩ := hp name hm
    exact Node.mem_refs.mpr ⟨m, hsub m hm m m.self_mem_nodes, hk⟩
  · rename_i hk
    split at hh
    · cases hh
      refine ⟨fun o hm => ?_, by simp⟩
      cases hm
      exact ⟨by simp [hk, Kind.isObject], fun n hn => hn⟩
    · cases hh
  · cases hh

theorem types_parents (path : Path) (parents : List String)
    (hr : ∀ r ∈ parents, Leads beyond cx rename r) :
    Decode.types beyond cx path (parents.map TypeExpr.reference) =
      pure (parents.map fun name => under none (.other :: path) (.of (.ref (rename name)))) := by
  induction parents with
  | nil => rfl
  | cons name rest ih =>
    have hn := (hr name List.mem_cons_self).type beyond cx path none none
    have ho := ih fun r hm => hr r (List.mem_cons_of_mem _ hm)
    simp [TypeExpr.reference, TypeExpr.of] at ho hn ⊢
    simp [Decode.types, hn, ho]

/-- The own members of a record. -/
theorem members_record {w : Wording} (path : Path) (object : Option Node) (ms : List Member)
    (h : Encode.ownMembers w path object = .ok ms) (hd : ∀ o ∈ object, ∀ n ∈ o.nodes, n.Distinct)
    (hr : ∀ o ∈ object, ∀ r ∈ o.refs, Leads beyond cx rename r) :
    Decode.members beyond cx path {} ms = pure (shape rename path object) := by
  match object with
  | none =>
    cases h
    rfl
  | some o =>
    replace hd := hd o rfl
    replace hr := hr o rfl
    have hself := hd o o.self_mem_nodes
    rw [o.nodes_eq] at hd
    rw [o.refs_eq] at hr
    obtain ⟨kind, c, e, a, l⟩ := o
    cases kind with
    | object named more =>
      simp only [Encode.ownMembers, Encode.objectMembers, bind_ok, pure_ok, Except.ok.injEq] at h
      obtain ⟨named', hn, more', hm, rfl⟩ := h
      simp only [Kind.nodes, List.mem_cons, List.mem_append] at hd
      simp only [List.mem_append] at hr
      have hp := members_encoded beyond cx path {} named named' hn (by simp [Shape.Lacks, Entries.names])
        hself.kind (fun n hn => hd n (.inr (.inl hn))) (fun r hn => hr r (.inl hn)) more'
      have ha := additional_encoded beyond cx path more more' hm (fun n hn => hd n (.inr (.inr hn)))
        (fun r hn => hr r (.inr hn))
      rw [hp, List.nil_append, ha]
      rfl
    | _ =>
      cases h
      rfl

/-- A record is declared as an interface. -/
theorem declaration_record {roots : List NamedType} {named : NamedType} {record : Heritage}
    (hrec : record? roots named.node = some record) (options : WriteOptions) :
    named.declaration options roots =
      Encode.ownMembers { useUnknown := options.useUnknown } [.declaration named.name] record.object >>= fun members =>
      .ok ⟨(options.namespaces.apply named.name).1, .interface {
        name := (options.namespaces.apply named.name).2
        exported := true
        declare := options.declaration
        heritage := record.parents.map TypeExpr.reference
        members
        doc := commentOf named.node.annotations (some named.name) }⟩ := by
  simp only [NamedType.declaration, hrec]
  cases record.object <;> rfl

/-- A declared type is read back under its name, whatever it is read in. -/
theorem declaration_encoded (roots : List NamedType) (named : NamedType) (options : WriteOptions) (p : Placed)
    (h : named.declaration options roots = .ok p) (hd : ∀ n ∈ named.node.nodes, n.Distinct) :
    ∃ body, p.namespaces = (options.namespaces.apply named.name).1 ∧
      (∀ policy scope, declarationsOf policy scope p.statement =
        [⟨policy.flatName scope (options.namespaces.apply named.name).2, scope, true, body⟩]) ∧
      ∀ beyond cx rename scope, (∀ r ∈ named.node.refs, Leads beyond cx rename r) →
        Decode.declaration beyond cx ⟨named.name, scope, true, body⟩ =
          pure (some (declared rename roots named)) := by
  cases hrec : record? roots named.node with
  | some record =>
    obtain ⟨ho, hp⟩ := record_mem hrec
    rw [declaration_record hrec, bind_ok] at h
    obtain ⟨ms, hms, h⟩ := h
    cases h
    refine ⟨_, rfl, fun policy scope => rfl, fun beyond cx rename scope hr => ?_⟩
    have hown : Decode.members beyond cx [.declaration named.name] {} ms =
        pure (shape rename [.declaration named.name] record.object) := members_record beyond cx _ _ ms hms
      (fun o hm n hn => hd n ((ho o hm).2 n hn))
      (fun o hm r hn => by
        obtain ⟨n, hn, hk⟩ := Node.mem_refs.mp hn
        exact hr r (Node.mem_refs.mpr ⟨n, (ho o hm).2 n hn, hk⟩))
    have hpar := types_parents beyond cx [.other, .declaration named.name] record.parents
      (fun r hm => hr r (hp r hm))
    simp [Decode.declaration, Declaration.isGeneric, Declaration.doc, hpar, hown, declared, hrec, under,
      ReadBack.record]
  | none =>
    simp only [NamedType.declaration, hrec, bind_ok, pure_ok, Except.ok.injEq] at h
    obtain ⟨value, hv, rfl⟩ := h
    refine ⟨_, rfl, fun policy scope => rfl, fun beyond cx rename scope hr => ?_⟩
    have ht := type_encoded beyond cx [.declaration named.name] named.node value hv hd hr value rfl
    rw [(encode_shape hv).1] at ht
    simp [Decode.declaration, Declaration.isGeneric, Declaration.doc, ht, declared, hrec, under]

end ReadBack

end TypeSchema
