import TypeSchema.Proofs.Closure
import TypeSchema.Proofs.Visits

namespace TypeSchema

mutual

/-- The tree without annotations, and with the nodes that `find` has in place of references. -/
def Node.subst (find : String → Option Node) : Node → Node
  | ⟨kind, constant, enumeration, _, loc⟩ =>
    match kind.ref?.bind find with
    | some node => node
    | none => ⟨kind.subst find, constant, enumeration, {}, loc⟩

def Kind.subst (find : String → Option Node) : Kind → Kind
  | .or members => .or (substAll find members)
  | .and members => .and (substAll find members)
  | .array element => .array (element.subst find)
  | .tuple elements additional minItems => .tuple (substAll find elements) (additional.subst find) minItems
  | .object properties additional => .object (substIn find properties) (additional.subst find)
  | kind => kind

def Additional.subst (find : String → Option Node) : Additional → Additional
  | .allowed flag => .allowed flag
  | .node node => .node (node.subst find)

def substAll (find : String → Option Node) : List Node → List Node
  | [] => []
  | node :: rest => node.subst find :: substAll find rest

def substIn (find : String → Option Node) : List (String × Property) → List (String × Property)
  | [] => []
  | (name, ⟨node, required⟩) :: rest => (name, ⟨node.subst find, required⟩) :: substIn find rest

end

/-- The tree without annotations. -/
def Node.bare (node : Node) : Node := node.subst fun _ => none

/-- The node that is found under a name, with the references in it replaced in turn, at most so deep. -/
def expansion (find : String → Option Node) : Nat → String → Option Node
  | 0, _ => none
  | depth + 1, name => (find name).map (Node.subst (expansion find depth))

def Shape.subst (find : String → Option Node) (shape : Shape) : Shape :=
  ⟨substIn find shape.properties, shape.additional.subst find⟩

def TupleShape.subst (find : String → Option Node) (shape : TupleShape) : TupleShape :=
  ⟨substAll find shape.elements, shape.minItems, shape.additional.subst find⟩

section

variable (find : String → Option Node)

@[simp] theorem Node.subst_layer (node : Node) (top : Annotations) : (node.layer top).subst find = node.subst find := by
  cases node
  simp only [Node.layer, Node.subst]

/-- Only a reference itself is replaced. -/
theorem Node.subst_of {kind : Kind} (h : kind.ref? = none) : (Node.of kind).subst find = .of (kind.subst find) := by
  simp only [Node.of, Node.subst, h, Option.bind_none]

@[simp] theorem Node.subst_any : Node.any.subst find = .any := Node.subst_of find rfl

theorem Shape.subst_node (shape : Shape) : shape.node.subst find = (shape.subst find).node := by
  rw [Shape.node, Node.subst_of find rfl]
  rfl

theorem substAll_append (nodes more : List Node) :
    substAll find (nodes ++ more) = substAll find nodes ++ substAll find more := by
  induction nodes with
  | nil => rfl
  | cons node rest ih => simp only [List.cons_append, substAll, ih]

theorem substAll_toList (node : Option Node) : substAll find node.toList = (node.map (·.subst find)).toList := by
  cases node <;> rfl

theorem substAll_isEmpty (nodes : List Node) : (substAll find nodes).isEmpty = nodes.isEmpty := by
  cases nodes <;> rfl

theorem Node.subst_getD_any (node : Option Node) :
    (node.getD .any).subst find = (node.map (·.subst find)).getD .any := by
  cases node with
  | none => exact Node.subst_any find
  | some node => rfl

theorem substIn_put (name : String) (node : Node) (required : Bool) (properties : Entries Property) :
    substIn find (properties.put name ⟨node, required⟩) =
      Entries.put name ⟨node.subst find, required⟩ (substIn find properties) := by
  induction properties with
  | nil => rfl
  | cons entry rest ih =>
    obtain ⟨key, old, optional⟩ := entry
    simp only [Entries.put, substIn]
    split
    · simp only [substIn]
    · simp only [substIn, ih]

end

/-- Where both runs end with values, these are related. -/
def Decode.Relates {α β : Type} (R : α → β → Prop) (m : Decode α) (m' : Decode β) : Prop :=
  ∀ ⦃log a log₁ log' b log₂⦄, Ends m log a log₁ → Ends m' log' b log₂ → R a b

namespace Decode.Relates

variable {α β γ δ : Type} {R : α → β → Prop} {S : γ → δ → Prop} {m : Decode α} {m' : Decode β}

theorem pure {a : α} {b : β} (h : R a b) : Relates R (Pure.pure a) (Pure.pure b) := by
  intro _ a' _ _ b' _ ha hb
  obtain ⟨rfl, -⟩ := Ends.pure_iff.mp ha
  obtain ⟨rfl, -⟩ := Ends.pure_iff.mp hb
  exact h

theorem bind {f : α → Decode γ} {g : β → Decode δ} (h : Relates R m m') (hf : ∀ a b, R a b → Relates S (f a) (g b)) :
    Relates S (m >>= f) (m' >>= g) := by
  intro _ _ _ _ _ _ hm hm'
  obtain ⟨a, _, ha, hfa⟩ := Ends.bind_iff.mp hm
  obtain ⟨b, _, hb, hgb⟩ := Ends.bind_iff.mp hm'
  exact hf a b (h ha hb) hfa hgb

/-- What only one run notes makes no difference. -/
theorem warn (cx cx' : Context) (omission : Omission) (span : Option Span) :
    Relates (fun _ _ => True) (cx.warn omission span) (cx'.warn omission span) :=
  fun _ _ _ _ _ _ _ _ => trivial

theorem unsupported {cx cx' : Context} {R : Option α → Option β → Prop} (h : R none none) (cause : Unsupported)
    (span : Option Span) : Relates R (cx.unsupported cause span) (cx'.unsupported cause span) := by
  intro _ _ _ _ _ _ ha hb
  obtain ⟨rfl, -⟩ := Context.unsupported_ends ha
  obtain ⟨rfl, -⟩ := Context.unsupported_ends hb
  exact h

end Decode.Relates

/-- The types that are visited: no operator is evaluated, and no tuple has a rest element. -/
structure Substitutable (parts : List TypeKind) : Prop where
  noOperator : NoOperator parts
  noRest : ∀ es, .tuple es ∈ parts → ∀ e ∈ es, e.mark ≠ .rest

theorem Substitutable.tail {kind : TypeKind} {parts : List TypeKind} (h : Substitutable (kind :: parts)) :
    Substitutable parts :=
  ⟨noOperator_cons h.noOperator, fun es he => h.noRest es (List.mem_cons_of_mem _ he)⟩

theorem substitutable_append {parts more : List TypeKind} :
    Substitutable (parts ++ more) ↔ Substitutable parts ∧ Substitutable more := by
  constructor
  · rintro ⟨hop, hrest⟩
    obtain ⟨hop₁, hop₂⟩ := noOperator_append.mp hop
    exact ⟨⟨hop₁, fun es he => hrest es (List.mem_append_left _ he)⟩,
      ⟨hop₂, fun es he => hrest es (List.mem_append_right _ he)⟩⟩
  · rintro ⟨⟨hop₁, hrest₁⟩, hop₂, hrest₂⟩
    exact ⟨noOperator_append.mpr ⟨hop₁, hop₂⟩, fun es he => (List.mem_append.mp he).elim (hrest₁ es) (hrest₂ es)⟩

/-- The node that a reference becomes, but for annotations. -/
def Resolved.node : Resolved → Option Node
  | .ref name => some (.of (.ref name))
  | .inlined node => node

namespace Decode

variable {find : String → Option Node}

/-- A node of the one run is that of the other after substitution. -/
def Substituted (find : String → Option Node) (node node' : Option Node) : Prop :=
  node.map Node.bare = node'.map (Node.subst find)

/-- The ways of the two runs from a name to a node. -/
structure Substitutes (find : String → Option Node) (beyond beyond' : Beyond) (cx cx' : Context) : Prop where
  resolve : ∀ name span, Relates (fun r r' => Substituted find r.node r'.node)
    (Decode.resolve beyond cx name span) (Decode.resolve beyond' cx' name span)

theorem Substituted.layer {node node' : Option Node} (h : Substituted find node node') (top : Annotations) :
    Substituted find (node.map (·.layer top)) (node'.map (·.layer top)) := by
  cases node <;> cases node' <;> simp_all [Substituted, Node.bare]

theorem Substituted.getD_any {node node' : Option Node} (h : Substituted find node node') :
    (node.getD .any).bare = (node'.getD .any).subst find := by
  rw [Node.bare, Node.subst_getD_any, Node.subst_getD_any]
  exact congrArg (Option.getD · Node.any) h

/-- Nodes of one kind, but for what is inside. -/
theorem Substituted.of_kind {kind kind' : Kind} (h : kind.ref? = none) (h' : kind'.ref? = none)
    (hk : kind.subst (fun _ => none) = kind'.subst find) (top : Annotations) :
    Substituted find (some ((Node.of kind).layer top)) (some ((Node.of kind').layer top)) := by
  simp only [Substituted, Option.map_some, Node.bare, Node.subst_layer, Node.subst_of _ h, Node.subst_of _ h', hk]

variable {beyond beyond' : Beyond} {cx cx' : Context}

theorem unsupported_substituted (cause : Unsupported) (span : Option Span) :
    Relates (Substituted find) (cx.unsupported cause span) (cx'.unsupported cause span) :=
  Relates.unsupported (R := Substituted find) (by rfl) cause span

mutual

theorem type_substituted (h : Substitutes find beyond beyond' cx cx') (outer : Path) (t : TypeExpr)
    (hparts : Substitutable t.parts) :
    Relates (Substituted find) (Decode.type beyond cx outer t) (Decode.type beyond' cx' outer t) := by
  match t with
  | ⟨.union all, doc, span⟩ | ⟨.intersection all, doc, span⟩ =>
    simp only [Decode.type]
    refine (types_substituted h _ all hparts.tail).bind fun nodes nodes' hn => .pure ?_
    refine Substituted.of_kind rfl rfl ?_ _
    simp only [Kind.subst, hn]
  | ⟨.parenthesized inner, doc, span⟩ =>
    simp only [Decode.type]
    exact (type_substituted h _ inner hparts.tail).bind fun node node' hn => .pure (hn.layer _)
  | ⟨.keyword k, doc, span⟩ =>
    cases k <;> simp only [Decode.type] <;>
      first | exact unsupported_substituted _ _ | exact .pure (Substituted.of_kind rfl rfl rfl _)
  | ⟨.literal l, doc, span⟩ =>
    cases l <;> simp only [Decode.type] <;>
      first | exact unsupported_substituted _ _ | exact Relates.pure (R := Substituted find) rfl
  | ⟨.array element, doc, span⟩ =>
    simp only [Decode.type]
    refine (type_substituted h _ element hparts.tail).bind fun node node' hn => .pure ?_
    refine Substituted.of_kind rfl rfl ?_ _
    exact congrArg Kind.array hn.getD_any
  | ⟨.reference name true args, doc, span⟩ =>
    simp only [Decode.type]
    exact unsupported_substituted _ _
  | ⟨.reference name false [], doc, span⟩ =>
    by_cases hname : name = "Array"
    · simp only [Decode.type, hname, List.length_nil, Nat.zero_le, and_self, if_true]
      exact .pure (Substituted.of_kind rfl rfl rfl _)
    · have hnone : Operator.ofName? name = none := hparts.noOperator name [] List.mem_cons_self
      simp only [Decode.type, hname, false_and, if_false, hnone]
      refine (h.resolve name span).bind fun r r' hr => ?_
      cases r <;> cases r' <;> refine .pure ?_ <;>
        simpa only [Substituted, Resolved.node, Option.map_some, Node.bare, Node.subst_layer] using hr
  | ⟨.reference name false (arg :: args), doc, span⟩ =>
    by_cases hname : name = "Array" ∧ (arg :: args).length ≤ 1
    · have hinner := hparts.tail
      simp only [TypeKind.inner, if_pos hname, partsOf, substitutable_append] at hinner
      simp only [Decode.type, if_pos hname]
      refine (type_substituted h _ arg hinner.1).bind fun node node' hn => .pure ?_
      refine Substituted.of_kind rfl rfl ?_ _
      exact congrArg Kind.array hn.getD_any
    · have hnone : Operator.ofName? name = none := hparts.noOperator name (arg :: args) List.mem_cons_self
      simp only [Decode.type, if_neg hname, hnone]
      exact unsupported_substituted _ _
  | ⟨.tuple all, doc, span⟩ =>
    simp only [Decode.type]
    have hrest := hparts.noRest all List.mem_cons_self
    refine (elements_substituted h outer 0 all hrest hparts.tail).bind fun shape shape' hs => .pure ?_
    obtain ⟨elements, minItems, additional⟩ := shape
    obtain ⟨elements', minItems', additional'⟩ := shape'
    simp only [TupleShape.subst, TupleShape.mk.injEq] at hs
    refine Substituted.of_kind rfl rfl ?_ _
    simp only [Kind.subst, hs]
  | ⟨.object all, doc, span⟩ =>
    simp only [Decode.type]
    refine (members_substituted h _ all rfl hparts.tail).bind fun shape shape' hs => .pure ?_
    refine Substituted.of_kind rfl rfl ?_ _
    simp only [Shape.subst, Shape.mk.injEq] at hs
    simp only [Kind.subst, hs]
  | ⟨.unsupported form, doc, span⟩ =>
    simp only [Decode.type]
    exact unsupported_substituted _ _

theorem types_substituted (h : Substitutes find beyond beyond' cx cx') (path : Path) (ts : List TypeExpr)
    (hparts : Substitutable (partsOf ts)) :
    Relates (fun nodes nodes' => substAll (fun _ => none) nodes = substAll find nodes')
      (types beyond cx path ts) (types beyond' cx' path ts) := by
  match ts with
  | [] => exact .pure rfl
  | t :: rest =>
    simp only [partsOf, substitutable_append] at hparts
    simp only [types]
    refine (type_substituted h path t hparts.1).bind fun node node' hn => ?_
    refine (types_substituted h path rest hparts.2).bind fun nodes nodes' hr => .pure ?_
    rw [substAll_append, substAll_append, hr, substAll_toList, substAll_toList]
    exact congrArg (fun n : Option Node => n.toList ++ _) hn

theorem elements_substituted (h : Substitutes find beyond beyond' cx cx') (outer : Path) (n : Nat)
    (es : List TupleElement) (hrest : ∀ e ∈ es, e.mark ≠ .rest) (hparts : Substitutable (partsOfElements es)) :
    Relates (fun shape shape' => shape.subst (fun _ => none) = shape'.subst find)
      (elements beyond cx outer n es) (elements beyond' cx' outer n es) := by
  match es with
  | [] => exact .pure rfl
  | ⟨.required, t, label⟩ :: rest | ⟨.optional, t, label⟩ :: rest =>
    obtain ⟨-, hrest⟩ := List.forall_mem_cons.mp hrest
    simp only [partsOfElements, substitutable_append] at hparts
    simp only [elements]
    refine (type_substituted h _ t hparts.1).bind fun node node' hn => ?_
    refine (elements_substituted h outer (n + 1) rest hrest hparts.2).bind fun shape shape' hs => .pure ?_
    simp only [TupleShape.subst, TupleShape.mk.injEq, substAll] at hs ⊢
    simp only [hs, and_self, and_true, List.cons.injEq]
    exact hn.getD_any
  | ⟨.rest, t, label⟩ :: rest => exact absurd rfl (hrest _ List.mem_cons_self)

theorem members_substituted (h : Substitutes find beyond beyond' cx cx') (path : Path) {shape shape' : Shape}
    (ms : List Member) (hs : shape.subst (fun _ => none) = shape'.subst find) (hparts : Substitutable (partsOfMembers ms)) :
    Relates (fun shape shape' => shape.subst (fun _ => none) = shape'.subst find)
      (members beyond cx path shape ms) (members beyond' cx' path shape' ms) := by
  match ms with
  | [] => exact .pure hs
  | .property name optional (some t) doc span :: rest =>
    simp only [partsOfMembers, substitutable_append] at hparts
    simp only [members]
    refine (type_substituted h _ t hparts.1).bind fun node node' hn => ?_
    refine members_substituted h path rest ?_ hparts.2
    simp only [Shape.subst, Shape.mk.injEq] at hs ⊢
    refine ⟨?_, hs.2⟩
    rw [substIn_put, substIn_put, hs.1, Node.subst_layer, Node.subst_layer]
    have hnode := hn.getD_any
    rw [Node.bare] at hnode
    rw [hnode]
  | .property name optional none doc span :: rest =>
    simp only [members]
    exact members_substituted h path rest hs hparts
  | .index param ⟨key, keyDoc, keySpan⟩ value doc span :: rest =>
    by_cases hkey : key = .keyword .string
    · subst hkey
      simp only [partsOfMembers, substitutable_append] at hparts
      simp only [members]
      refine (type_substituted h _ value hparts.1).bind fun node node' hn => ?_
      refine members_substituted h path rest ?_ hparts.2
      simp only [Shape.subst, Shape.mk.injEq] at hs ⊢
      exact ⟨hs.1, congrArg Additional.node hn.getD_any⟩
    · rw [partsOfMembers_index hkey] at hparts
      rw [members_index hkey, members_index hkey]
      exact (Relates.warn cx cx' _ _).bind fun _ _ _ => members_substituted h path rest hs hparts
  | .other span :: rest =>
    simp only [members]
    exact members_substituted h path rest hs hparts

end

theorem declaration_substituted (h : Substitutes find beyond beyond' cx cx') (d : Declaration)
    (hparts : Substitutable d.parts) :
    Relates (Substituted find) (declaration beyond cx d) (declaration beyond' cx' d) := by
  unfold declaration
  by_cases hg : d.isGeneric
  · rw [if_pos hg, if_pos hg]
    exact unsupported_substituted _ _
  · rw [Declaration.parts, if_neg hg] at hparts
    rw [if_neg hg, if_neg hg]
    cases hbody : d.body with
    | typeAlias a =>
      rw [hbody] at hparts
      refine (type_substituted h _ a.value hparts).bind fun node node' hn => .pure ?_
      simp only [Substituted, Option.map_some, Node.bare, Node.subst_layer, Option.some.injEq]
      exact hn.getD_any
    | interface i =>
      simp only [hbody, substitutable_append] at hparts
      refine (types_substituted h _ i.heritage hparts.1).bind fun parents parents' hp => ?_
      refine (members_substituted h _ i.members rfl hparts.2).bind fun own own' ho => .pure ?_
      have hempty : parents.isEmpty = parents'.isEmpty := by
        rw [← substAll_isEmpty (fun _ => none) parents, hp, substAll_isEmpty]
      have hown : own.node.subst (fun _ => none) = own'.node.subst find := by
        rw [Shape.subst_node, Shape.subst_node, ho]
      simp only [Substituted, Option.map_some, Node.bare, Node.subst_layer, Option.some.injEq, hempty]
      split
      · exact hown
      · rw [Node.subst_of _ rfl, Node.subst_of _ rfl]
        simp only [Kind.subst, substAll_append, hp, substAll, hown]

end Decode

/-- The nodes that stand in place of references: those of the declarations that are not exported, as they are when they
are included. -/
structure Context.Hidden (cx : Context) (find : String → Option Node) : Prop where
  decoded : ∀ e, cx.table.get? e.name = some e → e.exported = false →
    ∃ node log log', find e.name = some node ∧ Ends (cx.decodeTop e) log (some node) log'
  others : ∀ name, (∀ e, cx.table.get? name = some e → e.exported = true) → find name = none

/-- Two runs over the same declarations at the same place, one to inline and one to include them. -/
structure Context.Twin (cx cx' : Context) : Prop where
  table : cx.table = cx'.table
  scope : cx.scope = cx'.scope
  inline : cx.options.nonExported = .inline
  included : cx'.options.nonExported = .included

theorem expansion_of_none {find : String → Option Node} {name : String} (h : find name = none) (depth : Nat) :
    expansion find depth name = none := by
  cases depth with
  | zero => rfl
  | succ depth => rw [expansion, h, Option.map_none]

/-- Resolving references is substituting, where what is inlined is. -/
theorem Decode.Substitutes.of_inline {find : String → Option Node} {beyond beyond' : Beyond} {cx cx' : Context}
    (hcx : cx.Twin cx') (hother : ∀ name, (∀ e, cx.table.get? name = some e → e.exported = true) → find name = none)
    (hinline : ∀ e span log node log', cx.table.get? e.name = some e → e.exported = false →
      Ends (beyond.inline cx e span) log node log' → ∃ n, find e.name = some n ∧ node.map Node.bare = some n) :
    Substitutes find beyond beyond' cx cx' := by
  have href : ∀ name, find name = none → Substituted find (some (.of (.ref name))) (some (.of (.ref name))) := by
    intro name hf
    simp [Substituted, Node.bare, Node.subst, Node.of, Kind.ref?, hf, Kind.subst]
  refine ⟨fun name span => ?_⟩
  unfold Decode.resolve
  rw [← hcx.table, ← hcx.scope]
  cases hr : cx.table.resolve? cx.scope name with
  | none =>
    refine .pure (href name (hother name fun e he => ?_))
    rw [Table.get?_of_resolve?_eq_none hr] at he
    cases he
  | some e =>
    have hget := Table.get?_of_resolve? hr
    dsimp only
    cases he : e.exported with
    | true =>
      refine .pure (href e.name (hother e.name fun e' he' => ?_))
      rw [hget, Option.some.injEq] at he'
      exact he' ▸ he
    | false =>
      rw [hcx.inline, hcx.included]
      intro log r log₁ log' r' log₂ hrun hrun'
      obtain ⟨node, _, hnode, hpure⟩ := Ends.bind_iff.mp hrun
      obtain ⟨rfl, -⟩ := Ends.pure_iff.mp hpure
      obtain ⟨rfl, -⟩ := Ends.pure_iff.mp hrun'
      obtain ⟨n, hn, hbare⟩ := hinline e span _ _ _ hget he hnode
      simp [Substituted, Resolved.node, hbare, Node.subst, Node.of, Kind.ref?, hn]

/-- What is inlined is the node that is included, with the references in it replaced. -/
theorem Beyond.within_substituted {find : String → Option Node} (depth : Nat) {cx cx' : Context} (hcx : cx.Twin cx')
    (hfind : cx'.Hidden find) (hparts : ∀ d ∈ cx.table.declarations, Substitutable d.parts) {e : Declaration}
    (hget : cx.table.get? e.name = some e) (he : e.exported = false) {span : Option Span} {log log' : Log}
    {node : Option Node} (h : Ends ((within depth).inline cx e span) log node log') {k : Nat} (hk : depth ≤ k) :
    ∃ n, expansion find k e.name = some n ∧ node.map Node.bare = some n := by
  induction depth generalizing cx cx' e span log node log' k with
  | zero => exact (Ends.throw_iff.mp h).elim
  | succ depth ih =>
    obtain ⟨k, rfl⟩ : ∃ j, k = j + 1 := ⟨k - 1, by omega⟩
    obtain ⟨inner, hinner, -, h⟩ := inline_ends h
    cases hinner
    obtain ⟨included, _, _, hincluded, htop⟩ := hfind.decoded e (hcx.table ▸ hget) he
    rw [Context.decodeTop] at htop
    have htwin : (cx.inside e).Twin { cx' with path := [e.name], scope := e.scope, entered := [] } :=
      ⟨hcx.table, rfl, hcx.inline, hcx.included⟩
    have hfind' : Context.Hidden { cx' with path := [e.name], scope := e.scope, entered := [] } find :=
      ⟨hfind.decoded, hfind.others⟩
    have hsub : Decode.Substitutes (expansion find k) (within depth) (within cx'.table.declarations.length)
        (cx.inside e) { cx' with path := [e.name], scope := e.scope, entered := [] } :=
      .of_inline htwin (fun name hn => expansion_of_none (hfind.others name (hcx.table ▸ hn)) k)
        fun d span _ _ _ hd hx hrun => ih htwin hfind' hparts hd hx hrun (by omega)
    have hnode := Decode.declaration_substituted hsub e (hparts e (Table.name_of_get? hget).2) h htop
    exact ⟨_, by rw [expansion, hincluded, Option.map_some], hnode⟩

theorem Context.decodeTop_substituted {find : String → Option Node} {cx cx' : Context} (hcx : cx.Twin cx')
    (hfind : cx'.Hidden find) (hparts : ∀ d ∈ cx.table.declarations, Substitutable d.parts) {d : Declaration}
    (hd : d ∈ cx.table.declarations) {depth : Nat} (hdepth : cx.table.declarations.length ≤ depth) :
    Decode.Relates (Decode.Substituted (expansion find depth)) (cx.decodeTop d) (cx'.decodeTop d) := by
  have htwin : Twin { cx with path := [d.name], scope := d.scope, entered := [] }
      { cx' with path := [d.name], scope := d.scope, entered := [] } :=
    ⟨hcx.table, rfl, hcx.inline, hcx.included⟩
  refine Decode.declaration_substituted (.of_inline htwin ?_ ?_) d (hparts d hd)
  · exact fun name hn => expansion_of_none (hfind.others name (hcx.table ▸ hn)) depth
  · exact fun e span _ _ _ he hx hrun =>
      Beyond.within_substituted cx.table.declarations.length htwin ⟨hfind.decoded, hfind.others⟩ hparts he hx hrun hdepth

namespace Convert

variable {cx : Context}

/-- Each type is what its declaration was decoded to. -/
def Decoded (cx : Context) (types : List NamedType) : Prop :=
  ∀ t ∈ types, ∃ d log log', cx.table.get? t.name = some d ∧ Ends (cx.decodeTop d) log (some t.node) log'

theorem decoded_progress {hoistedAway : List String} {p : Progress} {log : Log}
    (hn : (cx.table.declarations.map Declaration.name).Nodup) (h : Ends (progress cx hoistedAway) {} p log) :
    Decoded cx p.types :=
  forall_types_progress (fun d hd _ _ _ hnode => ⟨d, _, _, Table.get?_of_mem hn hd, hnode⟩) h

/-- Where all references are settled at once, just the selected declarations become types. -/
theorem names_progress {hoistedAway : List String} {p : Progress} {log : Log}
    (hn : (cx.table.declarations.map Declaration.name).Nodup) (hg : ∀ d ∈ cx.table.declarations, d.isGeneric = false)
    (hp : cx.options.nonExported = .inline ∨ cx.options.nonExported = .included)
    (h : Ends (progress cx hoistedAway) {} p log) :
    p.types.map NamedType.name = (cx.table.declarations.filter (isSelected cx.options)).map Declaration.name := by
  obtain ⟨base, hbase, hc, -⟩ := progress_ends hn h
  obtain ⟨more, hmore, hadded⟩ := hc.added
  have hselected : (cx.table.declarations.filter (isSelected cx.options)).filter (!·.isGeneric) =
      cx.table.declarations.filter (isSelected cx.options) :=
    List.filter_eq_self.mpr fun d hd => by rw [hg d (List.mem_of_mem_filter hd), Bool.not_false]
  rw [hselected] at hbase
  suffices hnone : more = [] by rw [hmore, hnone, List.append_nil, hbase]
  rw [List.eq_nil_iff_forall_not_mem]
  intro t ht
  obtain ⟨⟨d, hd, he, -⟩, b, -, hreach⟩ := hadded t ht
  rcases hp with hp | hp
  · obtain ⟨_, -, u, hu, -, href⟩ := Relation.TransGen.tail'_iff.mp hreach
    have hadmits := hc.admits u hu _ href d hd he
    simp [hp] at hadmits
  · obtain ⟨hname, hmem⟩ := Table.name_of_get? hd
    have hnodup := hc.nodup
    rw [hmore, List.map_append, hbase, List.nodup_append] at hnodup
    refine hnodup.2.2 t.name ?_ t.name (List.mem_map_of_mem ht) rfl
    rw [← hname]
    exact List.mem_map_of_mem (List.mem_filter.mpr ⟨hmem, by simp [isSelected, hp]⟩)

end Convert

/-- The node of a declaration that is not exported, among the types of a document. -/
def Table.hidden (table : Table) (types : List NamedType) (name : String) : Option Node :=
  if (table.get? name).any (!·.exported) then (types.find? (·.name = name)).map NamedType.node else none

/-- Where each declaration is a type, the types are the nodes that stand in place of references. -/
theorem Convert.Decoded.hidden {cx : Context} {types : List NamedType} (hdecoded : Decoded cx types)
    (hall : ∀ d ∈ cx.table.declarations, d.name ∈ types.map NamedType.name) : cx.Hidden (cx.table.hidden types) := by
  refine ⟨fun e hget he => ?_, fun name hexported => ?_⟩
  · obtain ⟨t, ht, hname⟩ := List.mem_map.mp (hall e (Table.name_of_get? hget).2)
    obtain ⟨u, hu⟩ : ∃ u, types.find? (·.name = e.name) = some u :=
      Option.isSome_iff_exists.mp (List.find?_isSome.mpr ⟨t, ht, decide_eq_true hname⟩)
    have huname : u.name = e.name := by simpa using List.find?_some hu
    obtain ⟨d, log, log', hd, hends⟩ := hdecoded u (List.mem_of_find?_eq_some hu)
    obtain rfl : d = e := Option.some.inj (hd.symm.trans (huname ▸ hget))
    exact ⟨u.node, log, log', by simp [Table.hidden, hget, he, hu], hends⟩
  · rw [Table.hidden, if_neg]
    cases hget : cx.table.get? name with
    | none => simp
    | some d => simp [hexported d hget]

/-- Inlining is substitution. Where no declaration is generic, no operator is evaluated and no tuple has a rest element,
the types of the inlining conversion are the exported ones, and each is, but for annotations, what the including
conversion makes of the declaration, with each reference to a declaration that is not exported replaced in turn by what
that conversion makes of it. To go as deep as there are declarations is enough. -/
theorem SourceFile.convert_inline_substitution (file : SourceFile) (source : String) (options : ReadOptions)
    {inlined included : Conversion Document}
    (hparts : ∀ d ∈ (Table.collect options.namespaces file).1.declarations, d.isGeneric = false ∧ Substitutable d.parts)
    (hinlined : (file.convert source { options with nonExported := .inline }).result = .ok inlined)
    (hincluded : (file.convert source { options with nonExported := .included }).result = .ok included) :
    let table := (Table.collect options.namespaces file).1
    inlined.converted = (table.declarations.filter (·.exported)).map Declaration.name ∧
    included.converted = table.declarations.map Declaration.name ∧
    ∀ t ∈ inlined.data.types, ∃ t' ∈ included.data.types, t'.name = t.name ∧
      ∀ depth, table.declarations.length ≤ depth →
        t.node.bare = t'.node.subst (expansion (table.hidden included.data.types) depth) := by
  intro table
  obtain ⟨-, p, log, hends, rfl⟩ := convert_ends hinlined
  obtain ⟨-, p', log', hends', rfl⟩ := convert_ends hincluded
  have hn : (table.declarations.map Declaration.name).Nodup := Table.nodup_collect options.namespaces file
  have hg : ∀ d ∈ table.declarations, d.isGeneric = false := fun d hd => (hparts d hd).1
  have hnames : p.types.map NamedType.name = (table.declarations.filter (·.exported)).map Declaration.name := by
    rw [Convert.names_progress hn hg (.inl rfl) hends]
    exact congrArg _ (List.filter_congr fun d _ => by simp [Convert.isSelected])
  have hnames' : p'.types.map NamedType.name = table.declarations.map Declaration.name := by
    rw [Convert.names_progress hn hg (.inr rfl) hends']
    exact congrArg _ (List.filter_eq_self.mpr fun d _ => by simp [Convert.isSelected])
  have hdecoded' := Convert.decoded_progress hn hends'
  have hfind := hdecoded'.hidden fun d hd => hnames' ▸ List.mem_map_of_mem hd
  refine ⟨hnames, hnames', fun t ht => ?_⟩
  obtain ⟨d, _, _, hget, hnode⟩ := Convert.decoded_progress hn hends t ht
  obtain ⟨hname, hd⟩ := Table.name_of_get? hget
  obtain ⟨t', ht', hname'⟩ := List.mem_map.mp (hnames' ▸ List.mem_map_of_mem hd : d.name ∈ p'.types.map NamedType.name)
  obtain ⟨d', _, _, hget', hnode'⟩ := hdecoded' t' ht'
  obtain rfl : d' = d := Option.some.inj (hget'.symm.trans ((hname'.trans hname) ▸ hget))
  refine ⟨t', ht', hname'.trans hname, fun depth hdepth => ?_⟩
  have htwin : Context.Twin
      { source := source.toList, options := { options with nonExported := .inline }, table }
      { source := source.toList, options := { options with nonExported := .included }, table } := ⟨rfl, rfl, rfl, rfl⟩
  exact Option.some.inj
    (Context.decodeTop_substituted htwin hfind (fun d hd => (hparts d hd).2) hd hdepth hnode hnode')

/-- Inside a namespace, a declaration is shared by the elements of a tuple, and refers to a label that another one outside
has the name of. -/
theorem SourceFile.convert_inline_substitution_namespace :
    let pair : Alias := {
      name := "Pair", exported := true
      value := .of (.tuple [⟨.required, .reference "Mark", none⟩, ⟨.optional, .reference "Mark", none⟩]) }
    let file : SourceFile := ⟨[
      .namespaced ["Shelf"] false [
        .typeAlias pair,
        .typeAlias { name := "Mark", value := .of (.array (.reference "Label")) },
        .typeAlias { name := "Label", value := .keyword .string }] none,
      .typeAlias { name := "Label", value := .keyword .boolean }]⟩
    let options : ReadOptions := { namespaces := .joinDot }
    ∃ inlined included,
      (file.convert "" { options with nonExported := .inline }).result = .ok inlined ∧
      (file.convert "" { options with nonExported := .included }).result = .ok included ∧
      inlined.converted = ["Shelf.Pair"] ∧
      ∀ t ∈ inlined.data.types, ∃ t' ∈ included.data.types, t'.name = t.name ∧ ∀ depth, 4 ≤ depth →
        t.node.bare = t'.node.subst
          (expansion ((Table.collect options.namespaces file).1.hidden included.data.types) depth) := by
  intro pair file options
  have hparts : ∀ d ∈ (Table.collect options.namespaces file).1.declarations,
      d.isGeneric = false ∧ Substitutable d.parts := by
    have htable : (Table.collect options.namespaces file).1.declarations = visited .joinDot [] file.statements := by
      rw [Table.collect, Table.add_of_nodup _ _ (by decide +kernel)]
      rfl
    have hvisited : (visited .joinDot [] file.statements).map (fun d => (d.isGeneric, d.parts)) = [
        (false, [.tuple [⟨.required, .reference "Mark", none⟩, ⟨.optional, .reference "Mark", none⟩],
          .reference "Mark" false [], .reference "Mark" false []]),
        (false, [.array (.reference "Label"), .reference "Label" false []]),
        (false, [.keyword .string]),
        (false, [.keyword .boolean])] := rfl
    have hnone : ∀ name ∈ ["Mark", "Label"], Operator.ofName? name = none := by decide
    intro d hd
    have hmem : (d.isGeneric, d.parts) ∈ (visited .joinDot [] file.statements).map fun d => (d.isGeneric, d.parts) :=
      List.mem_map_of_mem (htable ▸ hd)
    simp only [hvisited, List.mem_cons, Prod.mk.injEq, List.not_mem_nil, or_false] at hmem
    rcases hmem with ⟨hg, hp⟩ | ⟨hg, hp⟩ | ⟨hg, hp⟩ | ⟨hg, hp⟩ <;> rw [hp] <;>
      refine ⟨hg, fun name args hm => ?_, fun es hm => ?_⟩ <;> simp_all [TypeExpr.reference, TypeExpr.of]
  have hok : ∀ policy ∈ [NonExportedPolicy.inline, .included],
      ((file.convert "" { options with nonExported := policy }).result.isOk) = true := by decide +kernel
  have hresult : ∀ policy ∈ [NonExportedPolicy.inline, .included],
      ∃ c, (file.convert "" { options with nonExported := policy }).result = .ok c := by
    intro policy hp
    have h := hok policy hp
    cases hrun : (file.convert "" { options with nonExported := policy }).result with
    | ok c => exact ⟨c, rfl⟩
    | error e => simp [hrun, Except.isOk, Except.toBool] at h
  obtain ⟨inlined, hinlined⟩ := hresult .inline (by simp)
  obtain ⟨included, hincluded⟩ := hresult .included (by simp)
  obtain ⟨hnames, -, hnodes⟩ := file.convert_inline_substitution "" options hparts hinlined hincluded
  have hlength : (Table.collect options.namespaces file).1.declarations.length = 4 := by decide +kernel
  refine ⟨inlined, included, hinlined, hincluded, hnames.trans (by decide +kernel), fun t ht => ?_⟩
  obtain ⟨t', ht', hname, hnode⟩ := hnodes t ht
  exact ⟨t', ht', hname, fun depth hdepth => hnode depth (Nat.le_trans (Nat.le_of_eq hlength) hdepth)⟩

end TypeSchema
