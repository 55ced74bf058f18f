import TypeSchema.Proofs.Encodable
import TypeSchema.Proofs.Inlining
import TypeSchema.Proofs.ScopedTypes

namespace TypeSchema

/-- Decoding inside some namespaces of a file, whose names are joined by dots. -/
structure Context.Scoped (cx : Context) (file : SourceFile) : Prop where
  undotted : file.AllUndotted
  table : cx.table = (Table.collect .joinDot file).1
  not_inline : cx.options.nonExported ≠ .inline
  scope : ∀ segment ∈ cx.scope, Undotted segment

/-- Another place in the file, inside a declaration. -/
theorem Context.Scoped.moved {cx cx' : Context} {file : SourceFile} (h : cx.Scoped file) (htable : cx'.table = cx.table)
    (hoptions : cx'.options = cx.options) {body : DeclarationBody} (hstands : Stands file.statements cx'.scope body) :
    cx'.Scoped file where
  undotted := h.undotted
  table := htable.trans h.table
  not_inline := hoptions ▸ h.not_inline
  scope segment hs := h.undotted _ _ hstands segment (List.mem_append_left _ hs)

/-- The way into other declarations comes to the shapes of declarations. -/
def Beyond.Expanding (beyond : Beyond) (file : SourceFile) (cx : Context) : Prop :=
  ∀ d span {log shape log'}, Stands file.statements d.scope d.body →
    Ends (beyond.expand cx d span) log (some shape) log' → file.Expands d.scope d.body shape

namespace Decode

variable {file : SourceFile} {beyond : Beyond} {cx : Context} {log log' : Log}

theorem kind_getD_any (node : Option Node) : (node.getD .any).kind = (node.map Node.kind).getD .any := by
  cases node <;> rfl

theorem not_mem_builtIn {name : String} (ha : name ≠ "Array") (ho : Operator.ofName? name = none) :
    name ∉ ["Array", "Pick", "Omit", "Partial"] := by
  intro hm
  simp only [List.mem_cons, List.not_mem_nil, or_false] at hm
  rcases hm with rfl | rfl | rfl | rfl
  · exact ha rfl
  all_goals exact absurd ho (by decide)

/-- A name is resolved to what it means in the scope of the context. -/
theorem ResolveEnds.means (hcx : cx.Scoped file) {name : String} {span : Option Span} {r : Resolved}
    (h : ResolveEnds beyond cx name span log r log') :
    ∃ target, r = .ref target ∧ (Undotted name → file.Means cx.scope name target) := by
  -- exported or not, what is declared is referred to by its flat name
  rcases h.target fun _ _ => .inr hcx.not_inline with ⟨d, hr, rfl⟩ | ⟨hr, rfl⟩
  · refine ⟨d.name, rfl, fun hname => ?_⟩
    rw [hcx.table] at hr
    obtain ⟨hin, rfl⟩ := Table.innermost_of_resolve? hcx.undotted hcx.scope hname hr
    rw [(Table.stands_of_get? (Table.get?_of_resolve? hr)).2]
    exact .declared hin
  · rw [hcx.table] at hr
    exact ⟨name, rfl, fun _ => .free (Table.not_declares_of_resolve? hr)⟩

theorem SubjectEnds.supplies (hcx : cx.Scoped file) (hb : beyond.Expanding file cx) {op : Operator} {t : TypeExpr}
    {subject : Node} {subjectSpan span : Option Span} {shape : Shape}
    (h : SubjectEnds beyond cx op subject subjectSpan span log (some shape) log')
    (hs : file.Yields cx.scope t (some subject.kind)) : file.Supplies cx.scope t shape := by
  cases h with
  | own hshape => exact .own (Node.shape?_eq_some_iff.mp hshape ▸ hs)
  | named hk hg hf =>
    rw [hcx.table] at hg
    obtain ⟨hstands, rfl⟩ := Table.stands_of_get? hg
    exact .named (hk ▸ hs) hstands (hb _ _ hstands hf)

theorem unsupported_yields {scope : List String} {t : TypeExpr} (ht : t.kind.MayBeLeftOut) {cause : Unsupported}
    {span : Option Span} {node : Option Node} (h : Ends (cx.unsupported cause span) log node log') :
    file.Yields scope t (node.map Node.kind) := by
  obtain ⟨rfl, -⟩ := Context.unsupported_ends h
  exact .leftOut ht

/-- A name without arguments is built in, or it is resolved. -/
theorem NameEnds.yields (hcx : cx.Scoped file) {outer : Path} {name : String} {doc : Option String}
    {span : Option Span} {node : Option Node} (h : NameEnds beyond cx outer name doc span log node log') :
    file.Yields cx.scope ⟨.reference name false [], doc, span⟩ (node.map Node.kind) := by
  cases h with
  | array ha => exact .plain ⟨ha, rfl⟩ (by simp [Node.refs_eq, Node.of, Node.any, Node.layer])
  | operator hop _ => exact .leftOut (.inr (by rw [hop]; rfl))
  | ref ha hop hr =>
    obtain ⟨_, heq, hmeans⟩ := hr.means hcx
    cases heq
    exact .reference rfl (not_mem_builtIn ha hop) hmeans
  | inlined _ _ hr =>
    obtain ⟨_, heq, -⟩ := hr.means hcx
    cases heq

-- The induction is on the type alone: whatever is written in another declaration is left to `beyond`.
mutual

theorem type_yields (hcx : cx.Scoped file) (hb : beyond.Expanding file cx) (outer : Path) (t : TypeExpr)
    {log log' : Log} {node : Option Node} (h : Ends (Decode.type beyond cx outer t) log node log') :
    file.Yields cx.scope t (node.map Node.kind) := by
  match t with
  | ⟨.union all, doc, span⟩ =>
    simp only [Decode.type, Ends.bind_iff, Ends.pure_iff] at h
    obtain ⟨nodes, log₁, hn, rfl, -⟩ := h
    exact .union rfl (types_yields hcx hb _ all hn)
  | ⟨.intersection all, doc, span⟩ =>
    simp only [Decode.type, Ends.bind_iff, Ends.pure_iff] at h
    obtain ⟨nodes, log₁, hn, rfl, -⟩ := h
    exact .intersection rfl (types_yields hcx hb _ all hn)
  | ⟨.parenthesized inner, doc, span⟩ =>
    simp only [Decode.type, Ends.bind_iff, Ends.pure_iff] at h
    obtain ⟨n, log₁, hn, rfl, -⟩ := h
    have hinner := type_yields hcx hb _ inner hn
    refine .parenthesized rfl ?_
    cases n <;> exact hinner
  | ⟨.keyword k, doc, span⟩ =>
    cases k <;> simp only [Decode.type, Ends.pure_iff] at h
    case never | void | undefined | symbol | bigint => exact unsupported_yields (by trivial) h
    all_goals
      obtain ⟨rfl, -⟩ := h
      exact .plain trivial (by simp [Node.refs_eq, Node.of, Node.any, Node.layer])
  | ⟨.literal l, doc, span⟩ =>
    cases l <;> simp only [Decode.type, Ends.pure_iff] at h
    case other text => exact unsupported_yields (by trivial) h
    all_goals
      obtain ⟨rfl, -⟩ := h
      exact .plain trivial (by simp [Node.refs_eq, Node.of, Node.layer])
  | ⟨.array element, doc, span⟩ =>
    simp only [Decode.type, Ends.bind_iff, Ends.pure_iff] at h
    obtain ⟨n, log₁, hn, rfl, -⟩ := h
    exact .array (.inl rfl) (type_yields hcx hb _ element hn) (kind_getD_any n)
  | ⟨.reference name true args, doc, span⟩ =>
    simp only [Decode.type] at h
    exact unsupported_yields (by trivial) h
  | ⟨.reference name false [], doc, span⟩ => exact (name_ends h).yields hcx
  | ⟨.reference name false (subject :: keys), doc, span⟩ =>
    cases application_ends h with
    | array ha hkeys hn =>
      subst ha hkeys
      exact .array (.inr rfl) (type_yields hcx hb _ subject hn) (kind_getD_any _)
    | generic _ _ | wrongArity _ _ _ | subjectLeftOut _ _ | nothing _ _ _ =>
      exact .leftOut (.inl (List.cons_ne_nil _ _))
    | operator hop _ hn ho =>
      have hsubject := type_yields hcx hb _ subject hn
      cases ho with
      | applied hshape hkeys => exact .operator rfl hop (hshape.supplies hcx hb hsubject) hkeys
  | ⟨.tuple all, doc, span⟩ =>
    simp only [Decode.type, Ends.bind_iff, Ends.pure_iff] at h
    obtain ⟨shape, log₁, hs, rfl, -⟩ := h
    exact .tuple rfl (elements_yields hcx hb outer 0 all hs)
  | ⟨.object all, doc, span⟩ =>
    simp only [Decode.type, Ends.bind_iff, Ends.pure_iff] at h
    obtain ⟨shape, log₁, hs, rfl, -⟩ := h
    exact .object rfl (members_yields hcx hb _ {} all hs)
  | ⟨.unsupported form, doc, span⟩ =>
    simp only [Decode.type] at h
    exact unsupported_yields (by trivial) h

theorem types_yields (hcx : cx.Scoped file) (hb : beyond.Expanding file cx) (path : Path) (ts : List TypeExpr)
    {log log' : Log} {nodes : List Node} (h : Ends (Decode.types beyond cx path ts) log nodes log') :
    file.YieldsAll cx.scope ts nodes := by
  match ts with
  | [] =>
    simp only [Decode.types, Ends.pure_iff] at h
    obtain ⟨rfl, -⟩ := h
    exact .nil
  | t :: rest =>
    simp only [Decode.types, Ends.bind_iff, Ends.pure_iff] at h
    obtain ⟨node, log₁, hn, nodes, log₂, hr, rfl, -⟩ := h
    exact .cons (type_yields hcx hb path t hn) (types_yields hcx hb path rest hr)

theorem elements_yields (hcx : cx.Scoped file) (hb : beyond.Expanding file cx) (outer : Path) (i : Nat)
    (es : List TupleElement) {log log' : Log} {shape : TupleShape}
    (h : Ends (Decode.elements beyond cx outer i es) log shape log') :
    file.YieldsElements cx.scope es shape.elements shape.additional := by
  match es with
  | [] =>
    simp only [Decode.elements, Ends.pure_iff] at h
    obtain ⟨rfl, -⟩ := h
    exact .nil
  | ⟨.required, t, label⟩ :: rest | ⟨.optional, t, label⟩ :: rest =>
    simp only [Decode.elements, Ends.bind_iff, Ends.pure_iff] at h
    obtain ⟨node, log₁, hn, shape, log₂, hr, rfl, -⟩ := h
    exact .element (by simp) (type_yields hcx hb _ t hn) (kind_getD_any node)
      (elements_yields hcx hb outer (i + 1) rest hr)
  | [⟨.rest, t, label⟩] =>
    cases rest_ends h with
    | array hk hn =>
      have htype := type_yields hcx hb _ t hn
      rw [Option.map_some, hk] at htype
      exact .rest rfl htype
    | other hk hn _ =>
      exact .unknownRest rfl (type_yields hcx hb _ t hn) fun element heq => hk element (Option.some.inj heq)
    | leftOut hn => exact .unknownRest rfl (type_yields hcx hb _ t hn) nofun
  | ⟨.rest, t, label⟩ :: next :: rest =>
    simp only [Decode.elements, Ends.bind_iff] at h
    obtain ⟨result, log₁, -, h⟩ := h
    exact .misplacedRest rfl (elements_yields hcx hb outer (i + 1) (next :: rest) h)

theorem members_yields (hcx : cx.Scoped file) (hb : beyond.Expanding file cx) (path : Path) (shape : Shape)
    (ms : List Member) {log log' : Log} {shape' : Shape}
    (h : Ends (Decode.members beyond cx path shape ms) log shape' log') :
    file.YieldsMembers cx.scope shape ms shape' := by
  match ms with
  | [] =>
    simp only [Decode.members, Ends.pure_iff] at h
    obtain ⟨rfl, -⟩ := h
    exact .nil
  | .property name optional (some t) doc span :: rest =>
    simp only [Decode.members, Ends.bind_iff] at h
    obtain ⟨node, log₁, hn, h⟩ := h
    have hkind : ((node.getD .any).layer (DocComment.read doc (.property name :: path))).kind =
        (node.map Node.kind).getD .any := kind_getD_any node
    exact .property (type_yields hcx hb _ t hn) hkind (members_yields hcx hb path _ rest h)
  | .property _ _ none _ _ :: rest =>
    simp only [Decode.members] at h
    exact .passedOver rfl (members_yields hcx hb path shape rest h)
  | .index _ key value _ span :: rest =>
    simp only [Decode.members] at h
    split at h
    · next hkey =>
      rw [Ends.bind_iff] at h
      obtain ⟨node, log₁, hn, h⟩ := h
      exact .index hkey (type_yields hcx hb _ value hn) (kind_getD_any node) (members_yields hcx hb path _ rest h)
    · next hkey =>
      rw [Ends.bind_iff] at h
      obtain ⟨_, log₁, -, h⟩ := h
      exact .passedOver hkey (members_yields hcx hb path shape rest h)
  | .other _ :: rest =>
    simp only [Decode.members] at h
    exact .passedOver trivial (members_yields hcx hb path shape rest h)

end

theorem declaration_yields (hcx : cx.Scoped file) (hb : beyond.Expanding file cx) {d : Declaration} {node : Node}
    (h : Ends (declaration beyond cx d) log (some node) log') : file.YieldsType cx.scope d.body node.kind := by
  cases declaration_ends h with
  | @typeAlias a n _ _ hbody hn =>
    have hvalue := SourceFile.YieldsType.typeAlias (type_yields hcx hb _ a.value hn)
    rw [← kind_getD_any, ← hbody] at hvalue
    exact hvalue
  | interface _ hbody hp ho =>
    rw [hbody]
    exact .interface (types_yields hcx hb _ _ hp) (members_yields hcx hb _ {} _ ho)

theorem InheritedEnds.yields (hcx : cx.Scoped file) (hb : beyond.Expanding file cx) {parents : List TypeExpr}
    {shape shape' : Shape} (h : InheritedEnds beyond cx shape parents log shape' log') :
    file.Inherits cx.scope shape parents shape' := by
  induction h with
  | nil => exact .nil
  | parent hk hr hf _ ih =>
    rw [hcx.table] at hr
    have hstands := (Table.stands_of_get? (Table.get?_of_resolve? hr)).1
    exact .parent hk ⟨hstands, fun hname => Table.innermost_of_resolve? hcx.undotted hcx.scope hname hr⟩
      (hb _ _ hstands hf) ih
  | shapeless _ _ _ _ ih | passedOver _ _ ih => exact .passedOver ih

/-- The members of a declaration are expanded in the namespaces that it stands in. -/
theorem shape_yields (hcx : cx.Scoped file) (hb : beyond.Expanding file cx) {d : Declaration} {shape : Shape}
    (h : Ends (Decode.shape beyond cx d) log (some shape) log') : file.Expands cx.scope d.body shape := by
  cases shape_ends h with
  | object hbody hshape hn =>
    have hyields := declaration_yields hcx hb hn
    rw [Node.shape?_eq_some_iff.mp hshape, hbody] at hyields
    rw [hbody]
    exact hyields.expands
  | interface hbody _ hbase hown =>
    rw [hbody]
    exact .interface (hbase.yields hcx hb) (members_yields hcx hb _ {} _ hown)

end Decode

/-- Declarations inside one another are expanded so at any depth, from wherever they are entered. -/
theorem Beyond.within_expanding {file : SourceFile} (depth : Nat) {cx : Context} (hcx : cx.Scoped file) :
    (within depth).Expanding file cx := by
  induction depth generalizing cx with
  | zero => exact fun d span _ _ _ _ h => (Ends.throw_iff.mp h).elim
  | succ depth ih =>
    intro d span log shape log' hstands h
    obtain ⟨inner, hinner, -, h⟩ := Beyond.expand_ends h
    cases hinner
    -- inside, references are looked up from where the declaration stands and not from where it is entered
    have hinside : (cx.inside d).Scoped file := hcx.moved rfl rfl hstands
    exact Decode.shape_yields hinside (ih hinside) h

/-- A declaration as a type of the document. -/
theorem Context.decodeTop_yields {file : SourceFile} {cx : Context} (hcx : cx.Scoped file) {d : Declaration} {node : Node}
    {log log' : Log} (hstands : Stands file.statements d.scope d.body) (h : Ends (cx.decodeTop d) log (some node) log') :
    file.YieldsType d.scope d.body node.kind := by
  have htop : ({ cx with path := [d.name], scope := d.scope, entered := [] } : Context).Scoped file :=
    hcx.moved rfl rfl hstands
  exact Decode.declaration_yields htop (Beyond.within_expanding _ htop) h

/-- Lexical scoping. Where the names of namespaces are joined by dots and no namespace or declaration of a file has a dot
in its name, a name means one thing at each place, and every type of the document is what a declaration of the file yields:
each reference that is written in it, or in a declaration that is expanded for an operator or inherited from on the way,
becomes what its name means in the namespaces that it is written in. Nothing else is referred to. -/
theorem SourceFile.convert_scopes (file : SourceFile) (source : String) (options : ReadOptions)
    (hundotted : file.AllUndotted) (hjoin : options.namespaces = .joinDot) (hinline : options.nonExported ≠ .inline)
    {conversion : Conversion Document} (h : (file.convert source options).result = .ok conversion) :
    (∀ scope name, ∃! target, file.Means scope name target) ∧
    ∀ t ∈ conversion.data.types, ∃ scope body, Stands file.statements scope body ∧
      t.name = joinTexts "." (scope ++ [body.localName]) ∧ file.YieldsType scope body t.node.kind ∧
      ∀ target ∈ t.node.refs, file.Sourced target := by
  obtain ⟨-, p, log, hends, rfl⟩ := convert_ends h
  rw [hjoin] at hends
  refine ⟨file.existsUnique_means, fun t ht => ?_⟩
  obtain ⟨d, log₁, log₂, hget, hdecoded⟩ := Convert.decoded_progress (Table.nodup_collect .joinDot file) hends t ht
  obtain ⟨hstands, hname⟩ := Table.stands_of_get? hget
  have hyields := Context.decodeTop_yields ⟨hundotted, rfl, hinline, by simp⟩ hstands hdecoded
  exact ⟨d.scope, d.body, hstands, hname, hyields, hyields.sourced hstands⟩

/-- Members that are inherited from outside and expanded inside another namespace: three references to a tag, each written
in a different place, and one to nothing. -/
theorem SourceFile.convert_scopes_tags :
    let exports (name : String) (value : TypeExpr) : Statement := .typeAlias { name, exported := true, value }
    let field (name type : String) : Member := .property name false (some (.reference type)) none none
    let file : SourceFile := ⟨[
      exports "Tag" (.keyword .string),
      .interface { name := "Base", members := [field "base" "Tag"] },
      .namespaced ["A"] true [
        exports "Tag" (.keyword .number),
        .interface {
          name := "Derived", heritage := [.reference "Base"]
          members := [field "own" "Tag", field "missing" "Lost"] },
        .namespaced ["B"] true [
          exports "Tag" (.keyword .boolean),
          exports "Part" (.of (.intersection [.of (.reference "Partial" false [.reference "Derived"]),
            .reference "Tag"]))] none] none]⟩
    let options : ReadOptions := { namespaces := .joinDot }
    file.AllUndotted ∧ ∃ conversion, (file.convert "" options).result = .ok conversion ∧
      conversion.data.types.map (fun t => (t.name, t.node.refs)) =
        [("Tag", []), ("A.Tag", []), ("A.B.Tag", []), ("A.B.Part", ["Tag", "A.Tag", "Lost", "A.B.Tag"])] ∧
      (∀ scope name, ∃! target, file.Means scope name target) ∧
      ∀ t ∈ conversion.data.types, ∃ scope body, Stands file.statements scope body ∧
        t.name = joinTexts "." (scope ++ [body.localName]) ∧ file.YieldsType scope body t.node.kind ∧
        ∀ target ∈ t.node.refs, file.Sourced target := by
  intro exports field file options
  have hundotted : file.AllUndotted := allUndotted_iff.mpr (by decide +kernel)
  obtain ⟨conversion, hok, hrefs⟩ := Option.map_eq_some_iff.mp
    (show (file.convert "" options).result.toOption.map
        (fun c => c.data.types.map fun t => (t.name, t.node.refs)) =
      some [("Tag", []), ("A.Tag", []), ("A.B.Tag", []), ("A.B.Part", ["Tag", "A.Tag", "Lost", "A.B.Tag"])] by
      decide +kernel)
  have h : (file.convert "" options).result = .ok conversion := by
    cases hr : (file.convert "" options).result with
    | error e => simp [hr, Except.toOption] at hok
    | ok c =>
      rw [hr] at hok
      rw [Option.some.inj hok]
  exact ⟨hundotted, conversion, h, hrefs, file.convert_scopes "" options hundotted rfl (by decide) h⟩

end TypeSchema
