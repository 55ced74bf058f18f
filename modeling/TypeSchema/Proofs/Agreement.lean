import TypeSchema.Proofs.Inlining
import TypeSchema.Proofs.Parallel
import TypeSchema.Proofs.Stripping

namespace TypeSchema

abbrev Kind.bare (kind : Kind) : Kind := kind.subst fun _ => none

abbrev Additional.bare (additional : Additional) : Additional := additional.subst fun _ => none

abbrev bareAll (nodes : List Node) : List Node := substAll (fun _ => none) nodes

abbrev bareIn (properties : List (String × Property)) : List (String × Property) := substIn (fun _ => none) properties

abbrev Shape.bare (shape : Shape) : Shape := shape.subst fun _ => none

abbrev TupleShape.bare (shape : TupleShape) : TupleShape := shape.subst fun _ => none

def NamedType.bare (t : NamedType) : NamedType := ⟨t.name, t.node.bare⟩

/-- The conversion, with no annotations on the types. -/
def Conversion.bare (c : Conversion Document) : Conversion Document :=
  { c with data := ⟨c.data.version, c.data.types.map NamedType.bare⟩ }

theorem Node.bare_eq (node : Node) : node.bare = { node with kind := node.kind.bare, annotations := {} } := by
  obtain ⟨kind, c, e, a, l⟩ := node
  simp only [bare, subst, Option.bind_fun_none]

@[simp] theorem Node.bare_layer (node : Node) (top : Annotations) : (node.layer top).bare = node.bare :=
  Node.subst_layer _ node top

theorem Node.kind_of_bare {a b : Node} (h : a.bare = b.bare) : a.kind.bare = b.kind.bare := by
  rw [Node.bare_eq, Node.bare_eq, Node.mk.injEq] at h
  exact h.1

@[simp] theorem Kind.isAny_bare (kind : Kind) : kind.bare.isAny = kind.isAny := by
  cases kind <;> rfl

@[simp] theorem Additional.isAllowed_bare (additional : Additional) :
    additional.bare.isAllowed = additional.isAllowed := by
  cases additional <;> rfl

mutual

theorem Node.references_bare (name : String) (node : Node) : node.bare.references name = node.references name := by
  match node with
  | ⟨kind, c, e, a, l⟩ =>
    rw [Node.bare_eq, Node.references, Node.references]
    exact kind.references_bare name

theorem Kind.references_bare (name : String) (kind : Kind) : kind.bare.references name = kind.references name := by
  match kind with
  | .or all | .and all =>
    simp only [Kind.subst, Kind.references]
    exact referencesAny_bare name all
  | .array element =>
    simp only [Kind.subst, Kind.references]
    exact element.references_bare name
  | .tuple all more _ =>
    have hmore := more.references_bare name
    have hall := referencesAny_bare name all
    simp only [Kind.subst, Kind.references, hall, hmore]
  | .object named more =>
    have hmore := more.references_bare name
    have hnamed := referencesProperty_bare name named
    simp only [Kind.subst, Kind.references, hnamed, hmore]
  | .any | .null | .string | .number | .integer | .boolean | .unsupported | .ref _ => rfl

theorem Additional.references_bare (name : String) (more : Additional) :
    more.bare.references name = more.references name := by
  match more with
  | .allowed _ => rfl
  | .node node =>
    simp only [Additional.subst, Additional.references]
    exact node.references_bare name

theorem referencesAny_bare (name : String) (nodes : List Node) :
    referencesAny name (bareAll nodes) = referencesAny name nodes := by
  match nodes with
  | [] => rfl
  | node :: rest =>
    have hnode := node.references_bare name
    have hrest := referencesAny_bare name rest
    simp only [Node.bare] at hnode
    simp only [substAll, referencesAny, hnode, hrest]

theorem referencesProperty_bare (name : String) (named : List (String × Property)) :
    referencesProperty name (bareIn named) = referencesProperty name named := by
  match named with
  | [] => rfl
  | (_, ⟨node, _⟩) :: rest =>
    have hnode := node.references_bare name
    have hrest := referencesProperty_bare name rest
    simp only [Node.bare] at hnode
    simp only [substIn, referencesProperty, hnode, hrest]

end

namespace Decode

variable {α β γ δ : Type} {R : α → β → Prop} {S : γ → δ → Prop}

/-- Two runs agree: both fail, or both end with related values and have noted the same references. -/
def Agrees (R : α → β → Prop) (m : Decode α) (m' : Decode β) : Prop :=
  ∀ ⦃log log' : Log⦄, log.referenced = log'.referenced →
    match m.run.run log, m'.run.run log' with
    | (.ok a, log₁), (.ok b, log₂) => R a b ∧ log₁.referenced = log₂.referenced
    | (.error _, _), (.error _, _) => True
    | _, _ => False

namespace Agrees

variable {m : Decode α} {m' : Decode β}

theorem pure {a : α} {b : β} (h : R a b) : Agrees R (Pure.pure a) (Pure.pure b) :=
  fun _ _ hlog => ⟨h, hlog⟩

theorem throw (e e' : Error) : Agrees R (throw e) (throw e') :=
  fun _ _ _ => trivial

theorem bind {f : α → Decode γ} {g : β → Decode δ} (h : Agrees R m m') (hf : ∀ a b, R a b → Agrees S (f a) (g b)) :
    Agrees S (m >>= f) (m' >>= g) := by
  intro log log' hlog
  have hm := h hlog
  rw [Decode.run_bind, Decode.run_bind]
  rcases hrun : m.run.run log with ⟨result, log₁⟩
  rcases hrun' : m'.run.run log' with ⟨result', log₂⟩
  rw [hrun, hrun'] at hm
  cases result with
  | error e =>
    cases result' with
    | error e' => trivial
    | ok b => exact hm.elim
  | ok a =>
    cases result' with
    | error e' => exact hm.elim
    | ok b => exact hf a b hm.1 hm.2

/-- What the first run does with its value alone. -/
theorem map_left {f : α → γ} {S : γ → β → Prop} (h : Agrees R m m') (hf : ∀ a b, R a b → S (f a) b) :
    Agrees S (m >>= fun a => Pure.pure (f a)) m' := by
  have hbind : Agrees S (m >>= fun a => Pure.pure (f a)) (m' >>= fun b => Pure.pure b) :=
    h.bind fun a b hab => .pure (hf a b hab)
  rwa [bind_pure] at hbind

theorem warn (cx cx' : Context) (omission omission' : Omission) (span span' : Option Span) :
    Agrees (fun _ _ => True) (cx.warn omission span) (cx'.warn omission' span') :=
  fun _ _ hlog => ⟨trivial, hlog⟩

/-- Under one policy, what is left out is left out or refused in both runs. -/
theorem unsupported {cx cx' : Context} {R : Option α → Option β → Prop} (h : R none none)
    (hpolicy : cx'.options.unsupported = cx.options.unsupported) (cause cause' : Unsupported) (span span' : Option Span) :
    Agrees R (cx.unsupported cause span) (cx'.unsupported cause' span') := by
  unfold Context.unsupported
  rw [hpolicy]
  cases cx.options.unsupported with
  | ignore => exact .pure h
  | warn => exact (Agrees.warn cx cx' _ _ span span').bind fun _ _ _ => .pure h
  | error => exact .throw _ _

end Agrees

/-- Nodes are the same but for annotations. -/
def SameBare (node node' : Option Node) : Prop := node.map Node.bare = node'.map Node.bare

/-- Shapes are the same but for annotations. -/
def SameShape (shape shape' : Option Shape) : Prop := shape.map Shape.bare = shape'.map Shape.bare

namespace SameBare

variable {node node' : Option Node}

theorem layer (h : SameBare node node') (top top' : Annotations) :
    SameBare (node.map (·.layer top)) (node'.map (·.layer top')) := by
  unfold SameBare at h ⊢
  rw [Option.map_map, Option.map_map]
  simpa only [Function.comp_def, Node.bare_layer] using h

theorem layer_left (h : SameBare node node') (top : Annotations) : SameBare (node.map (·.layer top)) node' := by
  unfold SameBare at h ⊢
  rw [Option.map_map]
  simpa only [Function.comp_def, Node.bare_layer] using h

theorem getD_any (h : SameBare node node') : (node.getD .any).bare = (node'.getD .any).bare := by
  rw [Node.bare, Node.bare, Node.subst_getD_any, Node.subst_getD_any]
  exact congrArg (Option.getD · Node.any) h

/-- Nodes of one kind, but for what is inside. -/
theorem of_kind {kind kind' : Kind} (h : kind.bare = kind'.bare) (top top' : Annotations) :
    SameBare (some ((Node.of kind).layer top)) (some ((Node.of kind').layer top')) := by
  simp only [SameBare, Option.map_some, Node.bare_layer]
  rw [Node.bare_eq (.of kind), Node.bare_eq (.of kind')]
  simp only [Node.of, h]

theorem eq_some {a : Node} (h : SameBare (some a) node') : ∃ b, node' = some b ∧ a.bare = b.bare := by
  cases node' with
  | none => cases h
  | some b => exact ⟨b, rfl, Option.some.inj h⟩

theorem eq_none (h : SameBare none node') : node' = none := by
  cases node' with
  | none => rfl
  | some b => cases h

end SameBare

theorem ofRest_bare {node node' : Option Node} (h : SameBare node node') :
    (Additional.ofRest node).bare = (Additional.ofRest node').bare := by
  cases node with
  | none =>
    obtain rfl := h.eq_none
    rfl
  | some node =>
    obtain ⟨node', rfl, hbare⟩ := h.eq_some
    have hany : node.kind.isAny = node'.kind.isAny := by
      rw [← Kind.isAny_bare, Node.kind_of_bare hbare, Kind.isAny_bare]
    simp only [Additional.ofRest, hany]
    split
    · rfl
    · exact congrArg Additional.node hbare

theorem substIn_filter (find : String → Option Node) (p : String → Bool) (named : List (String × Property)) :
    substIn find (named.filter fun q => p q.1) = (substIn find named).filter fun q => p q.1 := by
  induction named with
  | nil => rfl
  | cons entry rest ih =>
    obtain ⟨name, node, required⟩ := entry
    cases hp : p name <;> simp only [List.filter_cons, substIn, hp, ih, if_true, Bool.false_eq_true, if_false]

theorem substIn_loosen (find : String → Option Node) (named : List (String × Property)) :
    substIn find (named.map fun (name, p) => (name, { p with required := false })) =
      (substIn find named).map fun (name, p) => (name, { p with required := false }) := by
  induction named with
  | nil => rfl
  | cons entry rest ih =>
    obtain ⟨name, node, required⟩ := entry
    simp only [List.map_cons, substIn, ih]

/-- Operators only look at the names of properties. -/
theorem apply_bare (op : Operator) (keys : List String) (shape : Shape) :
    (op.apply keys shape).bare = op.apply keys shape.bare := by
  cases op with
  | pick =>
    simp only [Operator.apply, Shape.subst, Additional.subst]
    exact congrArg (Shape.mk · _) (substIn_filter _ keys.contains shape.properties)
  | drop =>
    simp only [Operator.apply, Shape.subst]
    exact congrArg (Shape.mk · _) (substIn_filter _ (fun name => !keys.contains name) shape.properties)
  | loosen =>
    simp only [Operator.apply, Shape.subst]
    exact congrArg (Shape.mk · _) (substIn_loosen _ shape.properties)

theorem extend_bare (base top : Shape) : (base.extend top).bare = base.bare.extend top.bare := by
  have hput : ∀ (named later : Entries Property),
      bareIn (named.extend later) = Entries.extend (bareIn named) (bareIn later) := by
    intro named later
    induction later generalizing named with
    | nil => rfl
    | cons entry rest ih =>
      obtain ⟨name, node, required⟩ := entry
      rw [Entries.extend, List.foldl_cons, ← Entries.extend, ih]
      dsimp only
      rw [bareIn, substIn_put]
      rfl
  simp only [Shape.extend, Shape.subst, hput, Additional.isAllowed_bare]
  split <;> rfl

mutual

theorem stringKeys?_stripped (t : TypeExpr) : stringKeys? t.stripped = stringKeys? t := by
  match t with
  | ⟨.parenthesized inner, doc, span⟩ =>
    rw [TypeExpr.stripped, stringKeys?]
    exact stringKeys?_stripped inner
  | ⟨.union all, doc, span⟩ =>
    rw [TypeExpr.stripped_of (by rintro _ ⟨⟩), TypeKind.stripped, stringKeys?, stringKeys?]
    exact stringKeysOf?_stripped all
  | ⟨.literal l, doc, span⟩ => cases l <;> rfl
  | ⟨.keyword _, _, _⟩ | ⟨.reference _ _ _, _, _⟩ | ⟨.array _, _, _⟩ | ⟨.tuple _, _, _⟩ | ⟨.intersection _, _, _⟩
  | ⟨.object _, _, _⟩ | ⟨.unsupported _, _, _⟩ => rfl

theorem stringKeysOf?_stripped (ts : List TypeExpr) : stringKeysOf? (strippedTypes ts) = stringKeysOf? ts := by
  match ts with
  | [] => rfl
  | t :: rest => rw [strippedTypes, stringKeysOf?, stringKeysOf?, stringKeys?_stripped t, stringKeysOf?_stripped rest]

end

/-- The steps of two runs that ask the context agree, the second one on a stripped file. -/
structure Mirrors (beyond beyond' : Beyond) (cx cx' : Context) : Prop where
  policy : cx'.options.unsupported = cx.options.unsupported
  resolve : ∀ name span span', Agrees (fun r r' => SameBare r.node r'.node)
    (Decode.resolve beyond cx name span) (Decode.resolve beyond' cx' name span')
  expand : ∀ name span span', Agrees SameShape
    ((cx.table.get? name).elim (Pure.pure none) fun d => beyond.expand cx d span)
    ((cx'.table.get? name).elim (Pure.pure none) fun d => beyond'.expand cx' d span')
  inherit : ∀ name span span', Agrees SameShape
    ((cx.table.resolve? cx.scope name).elim (Pure.pure none) fun d => beyond.expand cx d span)
    ((cx'.table.resolve? cx'.scope name).elim (Pure.pure none) fun d => beyond'.expand cx' d span')

variable {beyond beyond' : Beyond} {cx cx' : Context}

theorem Mirrors.unsupported (h : Mirrors beyond beyond' cx cx') (cause cause' : Unsupported) (span span' : Option Span) :
    Agrees SameBare (cx.unsupported cause span) (cx'.unsupported cause' span') :=
  Agrees.unsupported (R := SameBare) rfl h.policy cause cause' span span'

theorem subjectShape_ref (beyond : Beyond) (cx : Context) (op : Operator) {subject : Node} {name : String}
    (h : subject.kind = .ref name) (subjectSpan span : Option Span) :
    subjectShape beyond cx op subject subjectSpan span =
      ((cx.table.get? name).elim (Pure.pure none) fun d => beyond.expand cx d subjectSpan) >>= fun shape =>
        shape.elim (cx.unsupported (.operatorOfUnknown op name) span) fun shape => Pure.pure (some shape) := by
  rw [subjectShape, h]
  dsimp only
  cases cx.table.get? name with
  | none => rfl
  | some d =>
    refine bind_congr fun shape => ?_
    cases shape <;> rfl

theorem subjectShape_other (beyond : Beyond) (cx : Context) (op : Operator) {subject : Node}
    (hobject : subject.kind.isObject = false) (href : subject.kind.ref? = none) (subjectSpan span : Option Span) :
    subjectShape beyond cx op subject subjectSpan span =
      cx.unsupported (.operatorOfKind op subject.kind.tag) span := by
  rw [subjectShape]
  cases hk : subject.kind <;> simp_all [Kind.isObject, Kind.ref?]

theorem subjectShape_agrees (h : Mirrors beyond beyond' cx cx') (op : Operator) {subject subject' : Node}
    (hs : subject.bare = subject'.bare) (subjectSpan subjectSpan' span span' : Option Span) :
    Agrees SameShape (subjectShape beyond cx op subject subjectSpan span)
      (subjectShape beyond' cx' op subject' subjectSpan' span') := by
  have hkind := Node.kind_of_bare hs
  cases hk : subject.kind with
  | object named more =>
    cases hk' : subject'.kind <;> rw [hk, hk'] at hkind <;> simp only [Kind.subst, reduceCtorEq, Kind.object.injEq] at hkind
    rw [subjectShape, subjectShape, hk, hk']
    refine .pure ?_
    simp only [SameShape, Option.map_some, Shape.subst, hkind]
  | ref name =>
    cases hk' : subject'.kind <;> rw [hk, hk'] at hkind <;> simp only [Kind.subst, reduceCtorEq, Kind.ref.injEq] at hkind
    rw [subjectShape_ref _ _ _ hk, subjectShape_ref _ _ _ hk', ← hkind]
    refine (h.expand name subjectSpan subjectSpan').bind fun shape shape' hshape => ?_
    cases shape <;> cases shape' <;> try cases hshape
    · exact Agrees.unsupported (R := SameShape) rfl h.policy _ _ _ _
    · exact .pure hshape
  | _ =>
    have hobject : subject'.kind.isObject = false ∧ subject'.kind.ref? = none := by
      cases hk' : subject'.kind <;> rw [hk, hk'] at hkind <;> first | exact ⟨rfl, rfl⟩ | cases hkind
    rw [subjectShape_other _ _ _ (by rw [hk]; rfl) (by rw [hk]; rfl), subjectShape_other _ _ _ hobject.1 hobject.2]
    exact Agrees.unsupported (R := SameShape) rfl h.policy _ _ _ _

theorem operator_agrees (h : Mirrors beyond beyond' cx cx') (op : Operator) {subject subject' : Node}
    (hs : subject.bare = subject'.bare) (subjectSpan subjectSpan' : Option Span) (keys : Option TypeExpr)
    (span span' : Option Span) :
    Agrees SameBare (operator beyond cx op subject subjectSpan keys span)
      (operator beyond' cx' op subject' subjectSpan' (keys.map TypeExpr.stripped) span') := by
  have hnode : ∀ (shape shape' : Shape) (keys : List String), shape.bare = shape'.bare →
      SameBare (some (op.apply keys shape).node) (some (op.apply keys shape').node) := by
    intro shape shape' keys hshape
    have happly : (op.apply keys shape).bare = (op.apply keys shape').bare := by rw [apply_bare, apply_bare, hshape]
    simp only [SameBare, Option.map_some, Node.bare, Shape.subst_node]
    exact congrArg (fun s : Shape => some s.node) happly
  unfold operator
  refine (subjectShape_agrees h op hs subjectSpan subjectSpan' span span').bind fun shape shape' hshape => ?_
  cases shape <;> cases shape' <;> try cases hshape
  · exact Agrees.pure (R := SameBare) rfl
  · next shape shape' =>
    have hbare : shape.bare = shape'.bare := Option.some.inj hshape
    cases keys with
    | none => exact .pure (hnode shape shape' [] hbare)
    | some keys =>
      simp only [Option.map_some, stringKeys?_stripped]
      split
      · exact .pure (hnode shape shape' _ hbare)
      · exact h.unsupported _ _ _ _

mutual

theorem type_agrees (h : Mirrors beyond beyond' cx cx') (outer outer' : Path) (t : TypeExpr) :
    Agrees SameBare (Decode.type beyond cx outer t) (Decode.type beyond' cx' outer' t.stripped) := by
  match t with
  | ⟨.parenthesized inner, doc, span⟩ =>
    rw [TypeExpr.stripped, Decode.type]
    exact (type_agrees h _ outer' inner).map_left fun node node' hn => hn.layer_left _
  | ⟨.union all, doc, span⟩ | ⟨.intersection all, doc, span⟩ =>
    rw [TypeExpr.stripped_of (by rintro _ ⟨⟩)]
    simp only [TypeKind.stripped, Decode.type]
    refine (types_agrees h _ _ all).bind fun nodes nodes' hn => .pure (SameBare.of_kind ?_ _ _)
    simp only [Kind.subst]
    exact congrArg _ hn
  | ⟨.keyword k, doc, span⟩ =>
    rw [TypeExpr.stripped_of (by rintro _ ⟨⟩)]
    cases k <;> simp only [TypeKind.stripped, Decode.type] <;>
      first | exact h.unsupported _ _ _ _ | exact .pure (SameBare.of_kind rfl _ _)
  | ⟨.literal l, doc, span⟩ =>
    rw [TypeExpr.stripped_of (by rintro _ ⟨⟩)]
    cases l <;> simp only [TypeKind.stripped, Decode.type] <;>
      first | exact h.unsupported _ _ _ _ | exact Agrees.pure (R := SameBare) rfl
  | ⟨.array element, doc, span⟩ =>
    rw [TypeExpr.stripped_of (by rintro _ ⟨⟩)]
    simp only [TypeKind.stripped, Decode.type]
    refine (type_agrees h _ _ element).bind fun node node' hn => .pure (SameBare.of_kind ?_ _ _)
    exact congrArg Kind.array hn.getD_any
  | ⟨.reference name true args, doc, span⟩ =>
    rw [TypeExpr.stripped_of (by rintro _ ⟨⟩)]
    simp only [TypeKind.stripped, Decode.type]
    exact h.unsupported _ _ _ _
  | ⟨.reference name false [], doc, span⟩ =>
    rw [TypeExpr.stripped_of (by rintro _ ⟨⟩)]
    simp only [TypeKind.stripped, strippedTypes, Decode.type]
    split
    · exact .pure (SameBare.of_kind rfl _ _)
    · split
      · split
        · exact h.unsupported _ _ _ _
        · exact Agrees.pure (R := SameBare) rfl
      · refine (h.resolve name span span).bind fun r r' hr => ?_
        cases r <;> cases r' <;> refine .pure ?_ <;>
          simpa only [SameBare, Resolved.node, Option.map_some, Node.bare_layer] using hr
  | ⟨.reference name false (arg :: args), doc, span⟩ =>
    rw [TypeExpr.stripped_of (by rintro _ ⟨⟩)]
    simp only [TypeKind.stripped, strippedTypes, Decode.type, strippedTypes_eq_map, List.length_cons, List.length_map]
    split
    · refine (type_agrees h _ _ arg).bind fun node node' hn => .pure (SameBare.of_kind ?_ _ _)
      exact congrArg Kind.array hn.getD_any
    · split
      · next op hop =>
        split
        · exact h.unsupported _ _ _ _
        · refine (type_agrees h _ _ arg).bind fun node node' hn => ?_
          cases node with
          | none =>
            obtain rfl := hn.eq_none
            exact Agrees.pure (R := SameBare) rfl
          | some node =>
            obtain ⟨node', rfl, hbare⟩ := hn.eq_some
            rw [List.head?_map]
            exact (operator_agrees h op hbare _ _ _ _ _).bind fun result result' hr => .pure (hr.layer _ _)
      · exact h.unsupported _ _ _ _
  | ⟨.tuple all, doc, span⟩ =>
    rw [TypeExpr.stripped_of (by rintro _ ⟨⟩)]
    simp only [TypeKind.stripped, Decode.type]
    refine (elements_agrees h outer outer' 0 all).bind fun shape shape' hs => .pure (SameBare.of_kind ?_ _ _)
    simp only [TupleShape.subst, TupleShape.mk.injEq] at hs
    simp only [Kind.subst, hs]
  | ⟨.object all, doc, span⟩ =>
    rw [TypeExpr.stripped_of (by rintro _ ⟨⟩)]
    simp only [TypeKind.stripped, Decode.type]
    refine (members_agrees h _ _ all rfl).bind fun shape shape' hs => .pure (SameBare.of_kind ?_ _ _)
    simp only [Shape.subst, Shape.mk.injEq] at hs
    simp only [Kind.subst, hs]
  | ⟨.unsupported form, doc, span⟩ =>
    rw [TypeExpr.stripped_of (by rintro _ ⟨⟩)]
    simp only [TypeKind.stripped, Decode.type]
    exact h.unsupported _ _ _ _

theorem types_agrees (h : Mirrors beyond beyond' cx cx') (path path' : Path) (ts : List TypeExpr) :
    Agrees (fun nodes nodes' => bareAll nodes = bareAll nodes')
      (types beyond cx path ts) (types beyond' cx' path' (strippedTypes ts)) := by
  match ts with
  | [] => exact .pure rfl
  | t :: rest =>
    simp only [strippedTypes, types]
    refine (type_agrees h path path' t).bind fun node node' hn => ?_
    refine (types_agrees h path path' rest).bind fun nodes nodes' hr => .pure ?_
    simp only [bareAll, substAll_append, substAll_toList] at hr ⊢
    rw [hr]
    exact congrArg (fun n : Option Node => n.toList ++ _) hn

theorem elements_agrees (h : Mirrors beyond beyond' cx cx') (outer outer' : Path) (n : Nat) (es : List TupleElement) :
    Agrees (fun shape shape' => shape.bare = shape'.bare)
      (elements beyond cx outer n es) (elements beyond' cx' outer' n (strippedElements es)) := by
  match es with
  | [] => exact .pure rfl
  | ⟨.required, t, label⟩ :: rest | ⟨.optional, t, label⟩ :: rest =>
    simp only [strippedElements, elements]
    refine (type_agrees h _ _ t).bind fun node node' hn => ?_
    refine (elements_agrees h outer outer' (n + 1) rest).bind fun shape shape' hs => .pure ?_
    simp only [TupleShape.subst, TupleShape.mk.injEq, substAll] at hs ⊢
    simp only [hs, and_self, and_true, List.cons.injEq]
    exact hn.getD_any
  | [⟨.rest, t, label⟩] =>
    simp only [strippedElements, elements]
    refine (type_agrees h _ _ t).bind fun node node' hn => ?_
    cases node with
    | none =>
      obtain rfl := hn.eq_none
      exact .pure rfl
    | some node =>
      obtain ⟨node', rfl, hbare⟩ := hn.eq_some
      have hkind := Node.kind_of_bare hbare
      obtain ⟨kind, _, _, _, _⟩ := node
      obtain ⟨kind', _, _, _, _⟩ := node'
      cases kind with
      | array element =>
        cases kind' <;> simp only [Kind.subst, reduceCtorEq, Kind.array.injEq] at hkind
        next element' =>
        refine .pure ?_
        have hrest : SameBare (some element) (some element') := congrArg some hkind
        simp only [TupleShape.subst, ofRest_bare hrest]
      | _ =>
        cases kind' <;> simp only [Kind.subst, reduceCtorEq] at hkind
        all_goals
          refine (h.unsupported _ _ _ _).bind fun more more' hmore => .pure ?_
          simp only [TupleShape.subst, ofRest_bare hmore]
  | ⟨.rest, t, label⟩ :: ⟨mark, u, name⟩ :: rest =>
    have hrest := elements_agrees h outer outer' (n + 1) (⟨mark, u, name⟩ :: rest)
    simp only [strippedElements] at hrest
    simp only [strippedElements, elements]
    exact (h.unsupported _ _ _ _).bind fun _ _ _ => hrest

theorem members_agrees (h : Mirrors beyond beyond' cx cx') (path path' : Path) {shape shape' : Shape}
    (ms : List Member) (hs : shape.bare = shape'.bare) :
    Agrees (fun shape shape' => shape.bare = shape'.bare)
      (members beyond cx path shape ms) (members beyond' cx' path' shape' (strippedMembers ms)) := by
  match ms with
  | [] => exact .pure hs
  | .property name optional (some t) doc span :: rest =>
    simp only [strippedMembers, members]
    refine (type_agrees h _ _ t).bind fun node node' hn => ?_
    refine members_agrees h path path' rest ?_
    simp only [Shape.subst, Shape.mk.injEq] at hs ⊢
    refine ⟨?_, hs.2⟩
    rw [substIn_put, substIn_put, hs.1, Node.subst_layer, Node.subst_layer]
    have hnode := hn.getD_any
    rw [Node.bare, Node.bare] at hnode
    rw [hnode]
  | .property name optional none doc span :: rest =>
    simp only [strippedMembers, members]
    exact members_agrees h path path' rest hs
  | .index param ⟨key, keyDoc, keySpan⟩ value doc span :: rest =>
    by_cases hkey : key = .keyword .string
    · subst hkey
      simp only [strippedMembers, TypeKind.stripped, members]
      refine (type_agrees h _ _ value).bind fun node node' hn => ?_
      refine members_agrees h path path' rest ?_
      simp only [Shape.subst, Shape.mk.injEq] at hs ⊢
      exact ⟨hs.1, congrArg Additional.node hn.getD_any⟩
    · rw [strippedMembers, members_index hkey, members_index fun hk => hkey (TypeKind.stripped_eq_string.mp hk)]
      exact (Agrees.warn cx cx' _ _ _ _).bind fun _ _ _ => members_agrees h path path' rest hs
  | .other span :: rest =>
    simp only [strippedMembers, members]
    exact members_agrees h path path' rest hs

end

/-- With its own parentheses, a type still decodes to the same. -/
theorem inside_agrees (h : Mirrors beyond beyond' cx cx') (path path' : Path) (t : TypeExpr) :
    Agrees SameBare (Decode.type beyond cx path t) (Decode.type beyond' cx' path' t.strippedInside) := by
  obtain ⟨kind, doc, span⟩ := t
  by_cases hk : ∃ inner, kind = .parenthesized inner
  · obtain ⟨inner, rfl⟩ := hk
    simp only [TypeExpr.strippedInside, TypeKind.stripped, Decode.type]
    exact (type_agrees h _ _ inner).bind fun node node' hn => .pure (hn.layer _ _)
  · have ht := type_agrees h path path' ⟨kind, doc, span⟩
    rw [TypeExpr.stripped_of fun inner hinner => hk ⟨inner, hinner⟩] at ht
    exact ht

theorem parents_agrees (h : Mirrors beyond beyond' cx cx') (path path' : Path) (ts : List TypeExpr) :
    Agrees (fun nodes nodes' => bareAll nodes = bareAll nodes')
      (types beyond cx path ts) (types beyond' cx' path' (ts.map TypeExpr.strippedInside)) := by
  induction ts with
  | nil => exact .pure rfl
  | cons t rest ih =>
    simp only [List.map_cons, types]
    refine (inside_agrees h path path' t).bind fun node node' hn => ?_
    refine ih.bind fun nodes nodes' hr => .pure ?_
    simp only [bareAll, substAll_append, substAll_toList] at hr ⊢
    rw [hr]
    exact congrArg (fun n : Option Node => n.toList ++ _) hn

/-- What an interface comes to, from what it extends and what it has of its own. -/
theorem heritage_bare {parents parents' : List Node} {own own' : Node} (hp : bareAll parents = bareAll parents')
    (ho : own.bare = own'.bare) :
    (if parents.isEmpty then own else .of (.and (parents ++ [own]))).bare =
      (if parents'.isEmpty then own' else .of (.and (parents' ++ [own']))).bare := by
  have hempty : parents.isEmpty = parents'.isEmpty := by
    have hbare := congrArg List.isEmpty hp
    rwa [bareAll, bareAll, substAll_isEmpty, substAll_isEmpty] at hbare
  rw [hempty]
  split
  · exact ho
  · have hall : bareAll (parents ++ [own]) = bareAll (parents' ++ [own']) := by
      rw [bareAll, bareAll, substAll_append, substAll_append]
      exact congrArg₂ (· ++ ·) hp (congrArg (fun node => [node]) ho)
    rw [Node.bare_eq, Node.bare_eq]
    simp only [Node.of, Kind.subst, hall]

theorem declaration_agrees (h : Mirrors beyond beyond' cx cx') (d : Declaration) :
    Agrees SameBare (declaration beyond cx d) (declaration beyond' cx' d.stripped) := by
  unfold declaration
  rw [Declaration.stripped_isGeneric]
  split
  · exact h.unsupported _ _ _ _
  · obtain ⟨name, scope, exported, body⟩ := d
    cases body with
    | typeAlias a =>
      refine (type_agrees h _ _ a.value).bind fun node node' hn => .pure ?_
      simp only [SameBare, Option.map_some, Node.bare_layer, hn.getD_any]
    | interface i =>
      refine (parents_agrees h _ _ i.heritage).bind fun parents parents' hp => ?_
      refine (members_agrees h _ _ i.members rfl).bind fun own own' ho => .pure ?_
      have hown : own.node.bare = own'.node.bare := by
        rw [Node.bare, Node.bare, Shape.subst_node, Shape.subst_node]
        exact congrArg Shape.node ho
      simp only [SameBare, Option.map_some, Node.bare_layer, heritage_bare hp hown]

theorem inherited_agrees (h : Mirrors beyond beyond' cx cx') {shape shape' : Shape} (hs : shape.bare = shape'.bare)
    (ts : List TypeExpr) :
    Agrees (fun shape shape' => shape.bare = shape'.bare)
      (inherited beyond cx shape ts) (inherited beyond' cx' shape' (ts.map TypeExpr.strippedInside)) := by
  induction ts generalizing shape shape' with
  | nil => exact .pure hs
  | cons t rest ih =>
    obtain ⟨kind, doc, span⟩ := t
    rw [List.map_cons, TypeExpr.strippedInside]
    dsimp only
    cases kind with
    | reference name qualified args =>
      rw [TypeKind.stripped, inherited_reference, inherited_reference]
      refine (h.inherit name span span).bind fun more more' hm => ih ?_
      cases more with
      | none =>
        cases more' with
        | none => exact hs
        | some more' => cases hm
      | some more =>
        cases more' with
        | none => cases hm
        | some more' =>
          have hmore : more.bare = more'.bare := Option.some.inj hm
          change (shape.extend more).bare = (shape'.extend more').bare
          rw [extend_bare, extend_bare, hs, hmore]
    | _ => exact ih hs

theorem shape?_agrees {node node' : Option Node} (h : SameBare node node') :
    SameShape (node.bind Node.shape?) (node'.bind Node.shape?) := by
  cases node with
  | none =>
    obtain rfl := h.eq_none
    rfl
  | some node =>
    obtain ⟨node', rfl, hbare⟩ := h.eq_some
    have hkind := Node.kind_of_bare hbare
    simp only [Option.bind_some, Node.shape?, SameShape]
    cases hk : node.kind <;> cases hk' : node'.kind <;> rw [hk, hk'] at hkind <;> first | rfl | cases hkind | skip
    simp only [Kind.subst, Kind.object.injEq] at hkind
    simp only [Option.map_some, Shape.subst, hkind]

theorem shape_agrees (h : Mirrors beyond beyond' cx cx') (d : Declaration) :
    Agrees SameShape (Decode.shape beyond cx d) (Decode.shape beyond' cx' d.stripped) := by
  have hdecl := declaration_agrees h d
  obtain ⟨name, scope, exported, body⟩ := d
  cases body with
  | typeAlias a => exact hdecl.bind fun node node' hn => .pure (shape?_agrees hn)
  | interface i =>
    simp only [Decode.shape, Declaration.stripped, DeclarationBody.stripped, Interface.stripped]
    split
    · exact Agrees.pure (R := SameShape) rfl
    · refine (inherited_agrees h rfl i.heritage).bind fun base base' hb => ?_
      refine (members_agrees h _ _ i.members rfl).bind fun own own' ho => .pure ?_
      have hshape : (base.extend own).bare = (base'.extend own').bare := by rw [extend_bare, extend_bare, hb, ho]
      exact congrArg some hshape

end Decode

end TypeSchema
