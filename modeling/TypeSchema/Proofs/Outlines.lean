import TypeSchema.Proofs.Fields
import TypeSchema.Proofs.Inheritance
import TypeSchema.Proofs.PolicyRefinement

namespace TypeSchema

/-- What is the same in two objects whose properties may have different nodes. -/
structure Outline where
  /-- The properties in order, and whether they are required. -/
  properties : Entries Bool := []
  allowsMore : Bool := false

def Shape.outline (shape : Shape) : Outline where
  properties := shape.properties.map fun p => (p.1, p.2.required)
  allowsMore := shape.additional.isAllowed

/-- The outline of an object. -/
def Node.outline? (node : Node) : Option Outline := node.shape?.map Shape.outline

namespace Entries

variable {α β : Type} (f : α → β)

theorem map_put (name : String) (value : α) (entries : Entries α) :
    (put name value entries).map (fun p => (p.1, f p.2)) = put name (f value) (entries.map fun p => (p.1, f p.2)) := by
  induction entries with
  | nil => rfl
  | cons entry rest ih =>
    by_cases h : entry.1 = name
    · simp [put, h]
    · simp [put, h, ih]

theorem map_extend (entries later : Entries α) :
    (extend entries later).map (fun p => (p.1, f p.2)) =
      extend (entries.map fun p => (p.1, f p.2)) (later.map fun p => (p.1, f p.2)) := by
  induction later generalizing entries with
  | nil => rfl
  | cons entry rest ih =>
    have hmore := ih (put entry.1 entry.2 entries)
    rw [map_put] at hmore
    exact hmore

end Entries

namespace Outline

/-- An outline with one more member. -/
def member (o : Outline) : Member → Outline
  | .property name optional (some _) _ _ => { o with properties := o.properties.put name !optional }
  | .index _ ⟨.keyword .string, _, _⟩ _ _ _ => { o with allowsMore := true }
  | _ => o

/-- The outline of the members that stand in an interface itself. -/
def own (i : Interface) : Outline := i.members.foldl member {}

/-- An outline on top of another. -/
def extend (base top : Outline) : Outline where
  properties := base.properties.extend top.properties
  allowsMore := base.allowsMore || top.allowsMore

/-- What an operator leaves of an outline. -/
def under (o : Outline) (u : OperatorUse) : Outline where
  properties := (o.properties.filter fun p => u.keeps p.1).map fun p => (p.1, p.2 && !u.loosens)
  allowsMore := o.allowsMore && !u.picks

theorem nodup_member {o : Outline} (h : o.properties.names.Nodup) (m : Member) : (o.member m).properties.names.Nodup := by
  unfold member
  split
  · exact Entries.nodup_put h _ _
  · exact h
  · exact h

theorem nodup_foldl_member {o : Outline} (h : o.properties.names.Nodup) (ms : List Member) :
    (ms.foldl member o).properties.names.Nodup := by
  induction ms generalizing o with
  | nil => exact h
  | cons m rest ih => exact ih (nodup_member h m)

/-- Members with nothing under them are as they are. -/
theorem empty_extend_own (i : Interface) : extend {} (own i) = own i := by
  have hempty : ({} : Outline).properties.names.Nodup := List.nodup_nil
  have hproperties : Entries.extend [] (own i).properties = (own i).properties :=
    Entries.extend_of_nodup (nodup_foldl_member hempty i.members)
  unfold extend
  rw [hproperties, Bool.false_or]

end Outline

namespace Shape

theorem outline_extend (base top : Shape) : (base.extend top).outline = base.outline.extend top.outline := by
  simp only [outline, extend, Outline.extend, Entries.map_extend, Outline.mk.injEq, true_and]
  cases h : top.additional.isAllowed <;> simp [h]

theorem outline_apply (shape : Shape) (u : OperatorUse) : (u.op.apply u.keys shape).outline = shape.outline.under u := by
  have hleft := shape.apply_left u []
  rw [left_nil] at hleft
  rw [hleft]
  simp only [outline, left, Outline.under, List.all_cons, List.all_nil, List.any_cons, List.any_nil, Bool.and_true,
    Bool.or_false, List.filter_map, List.map_map, Function.comp_def, Outline.mk.injEq, true_and]
  cases u.picks <;> simp [Additional.isAllowed]

end Shape

theorem Node.outline?_layer (node : Node) (top : Annotations) : (node.layer top).outline? = node.outline? := rfl

theorem Shape.outline?_node (shape : Shape) : shape.node.outline? = some shape.outline := rfl

namespace Table

/-- A type is the plain name of a declaration. The names of what is built in stand for nothing else. -/
structure Refers (table : Table) (scope : List String) (t : TypeExpr) (name : String) (d : Declaration) : Prop where
  plain : t.kind = .reference name false []
  no_array : name ≠ "Array"
  no_operator : Operator.ofName? name = none
  resolves : table.resolve? scope name = some d

/-- An interface without type parameters that extends nothing but such interfaces, and never itself. -/
inductive Lineage (table : Table) : Declaration → Prop
  | intro {d : Declaration} {i : Interface} : d.body = .interface i → i.typeParams.isEmpty →
      (∀ parent ∈ i.heritage, ∃ name e, table.Refers d.scope parent name e) →
      (∀ parent ∈ i.heritage, ∀ name e, table.Refers d.scope parent name e → Lineage table e) → Lineage table d

mutual

/-- The outline of an interface: what it inherits, with its own members on top. -/
inductive Outlined (table : Table) : Declaration → Outline → Prop
  | intro {d : Declaration} {i : Interface} {base : Outline} : d.body = .interface i → i.typeParams.isEmpty →
      Inherits table d.scope {} i.heritage base → Outlined table d (base.extend (.own i))

/-- An outline with those of the interfaces that are named, one on top of the other. -/
inductive Inherits (table : Table) : List String → Outline → List TypeExpr → Outline → Prop
  | nil {scope : List String} {o : Outline} : Inherits table scope o [] o
  | cons {scope : List String} {o more o' : Outline} {parent : TypeExpr} {rest : List TypeExpr} {name : String}
      {e : Declaration} : table.Refers scope parent name e → Outlined table e more →
      Inherits table scope (o.extend more) rest o' → Inherits table scope o (parent :: rest) o'

end

variable {table : Table} {scope : List String} {t : TypeExpr} {name : String} {d : Declaration}

theorem Refers.names (h : table.Refers scope t name d) : table.Names scope t d :=
  ⟨name, false, [], h.plain, h.resolves⟩

mutual

/-- An interface has one outline. -/
theorem Outlined.unique {d : Declaration} {o o' : Outline} (h : table.Outlined d o) (h' : table.Outlined d o') :
    o = o' := by
  match h, h' with
  | .intro hbody _ hbase, .intro hbody' _ hbase' =>
    cases DeclarationBody.interface.inj (hbody.symm.trans hbody')
    rw [hbase.unique hbase']

theorem Inherits.unique {scope : List String} {o r r' : Outline} {parents : List TypeExpr}
    (h : table.Inherits scope o parents r) (h' : table.Inherits scope o parents r') : r = r' := by
  match h, h' with
  | .nil, .nil => rfl
  | .cons hrefers hmore hrest, .cons hrefers' hmore' hrest' =>
    cases hrefers.names.unique hrefers'.names
    cases hmore.unique hmore'
    exact hrest.unique hrest'

end

/-- Interfaces that all have an outline are inherited from in turn. -/
theorem exists_inherits (parents : List TypeExpr)
    (h : ∀ parent ∈ parents, ∃ name e more, table.Refers scope parent name e ∧ table.Outlined e more) (o : Outline) :
    ∃ o', table.Inherits scope o parents o' := by
  induction parents generalizing o with
  | nil => exact ⟨o, .nil⟩
  | cons parent rest ih =>
    obtain ⟨name, e, more, hrefers, hmore⟩ := h parent List.mem_cons_self
    obtain ⟨o', hrest⟩ := ih (fun p hp => h p (List.mem_cons_of_mem _ hp)) (o.extend more)
    exact ⟨o', .cons hrefers hmore hrest⟩

/-- Every such interface has an outline. -/
theorem Lineage.exists_outlined (h : table.Lineage d) : ∃ o, table.Outlined d o := by
  induction h with
  | intro hbody hgeneric hrefers _ ih =>
    obtain ⟨base, hbase⟩ := exists_inherits _ (fun parent hparent => by
      obtain ⟨name, e, he⟩ := hrefers parent hparent
      obtain ⟨more, hmore⟩ := ih parent hparent name e he
      exact ⟨name, e, more, he, hmore⟩) {}
    exact ⟨_, .intro hbody hgeneric hbase⟩

/-- Where nothing is inherited, the outline is that of the members themselves. -/
theorem Outlined.eq_own {o : Outline} {i : Interface} (h : table.Outlined d o) (hbody : d.body = .interface i)
    (hheritage : i.heritage = []) : o = .own i := by
  cases h with
  | intro hbody' _ hbase =>
    cases DeclarationBody.interface.inj (hbody.symm.trans hbody')
    rw [hheritage] at hbase
    cases hbase
    exact Outline.empty_extend_own i

end Table

namespace Decode

variable {beyond : Beyond} {cx : Context} {log log' : Log}

/-- Members are decoded to what can be read off the text. -/
theorem outline_members {path : Path} {shape shape' : Shape} {ms : List Member}
    (h : Ends (members beyond cx path shape ms) log shape' log') :
    shape'.outline = ms.foldl Outline.member shape.outline := by
  induction ms generalizing shape log with
  | nil =>
    obtain ⟨rfl, -⟩ := Ends.pure_iff.mp h
    rfl
  | cons m rest ih =>
    match m with
    | .property name optional (some t) doc span =>
      simp only [members, Ends.bind_iff] at h
      obtain ⟨node, log₁, -, h⟩ := h
      rw [ih h, Shape.outline, Entries.map_put Property.required]
      rfl
    | .property name optional none doc span => exact ih h
    | .index param key value doc span =>
      simp only [members] at h
      split at h
      · next hkey =>
        obtain ⟨kind, keyDoc, keySpan⟩ := key
        cases hkey
        simp only [Ends.bind_iff] at h
        obtain ⟨node, log₁, -, h⟩ := h
        exact ih h
      · next hkey =>
        simp only [Ends.bind_iff] at h
        obtain ⟨_, log₁, -, h⟩ := h
        rw [ih h, List.foldl_cons]
        congr 1
        unfold Outline.member
        split
        · next heq => cases heq
        · next heq =>
          cases heq
          exact absurd rfl hkey
        · rfl
    | .other span => exact ih h

/-- An operator stands around what its subject is decoded to; nothing is left of it where the subject or its shape is
missing. -/
theorem OperatorEnds.use {u : OperatorUse} {subject : Node} {subjectSpan span : Option Span} {result : Option Node}
    (h : OperatorEnds beyond cx u.op subject subjectSpan u.args.head? span log result log') :
    ∃ shape, SubjectEnds beyond cx u.op subject subjectSpan span log shape log' ∧
      result = shape.map fun shape => (u.op.apply u.keys shape).node := by
  have hlisted : u.args.head?.elim (some []) stringKeys? = some u.keys := by
    cases u with
    | pick keys | drop keys => exact keys.lists.stringKeys?
    | loosen => rfl
  cases h with
  | applied hshape hkeys =>
    cases hlisted.symm.trans hkeys
    exact ⟨_, hshape, rfl⟩
  | shapeless hshape => exact ⟨none, hshape, rfl⟩
  | unlisted _ hkeys _ => cases hlisted.symm.trans hkeys

theorem around_ends_some {outer : Path} {w : Wrapper} {subject : TypeExpr} {result : Option Node}
    (h : Ends (Decode.type beyond cx outer (w.around subject)) log result log') :
    ∃ node log₁, Ends (Decode.type beyond cx (.other :: outer) subject) log node log₁ ∧
      ∀ n, node = some n → ∃ shape,
        SubjectEnds beyond cx w.use.op n subject.span w.span log₁ shape log' ∧
          result = shape.map fun shape =>
            (w.use.op.apply w.use.keys shape).node.layer (DocComment.read w.doc (.other :: outer)) := by
  have hname : ¬(w.use.op.name = "Array" ∧ (subject :: w.use.args).length ≤ 1) := by
    intro h
    cases hop : w.use.op <;> rw [hop] at h <;> exact absurd h.1 (by decide)
  have harity : (subject :: w.use.args).length = w.use.op.arity := w.use.length_args
  simp only [Wrapper.around, Decode.type] at h
  rw [if_neg hname] at h
  simp only [Operator.ofName?_name, harity, ne_eq, not_true_eq_false, if_false, Ends.bind_iff] at h
  obtain ⟨node, log₁, hsubject, h⟩ := h
  refine ⟨node, log₁, hsubject, ?_⟩
  rintro n rfl
  simp only [Ends.bind_iff] at h
  obtain ⟨result', log₂, hoperator, h⟩ := h
  obtain ⟨shape, hshape, rfl⟩ := (operator_ends hoperator).use
  obtain ⟨rfl, rfl⟩ := Ends.pure_iff.mp h
  refine ⟨shape, hshape, ?_⟩
  cases shape <;> rfl

/-- A plain name is decoded to a reference where the declaration stays a type of its own. -/
theorem type_kept {outer : Path} {t : TypeExpr} {name : String} {d : Declaration} {node : Option Node}
    (hrefers : cx.table.Refers cx.scope t name d) (hkept : d.exported ∨ cx.options.nonExported ≠ .inline)
    (h : Ends (Decode.type beyond cx outer t) log node log') : ∃ n, node = some n ∧ n.kind = .ref d.name := by
  obtain ⟨hplain, harray, hoperator, hresolves⟩ := hrefers
  obtain ⟨kind, doc, span⟩ := t
  subst hplain
  have htarget {r : Resolved} {log₁ : Log} (hr : ResolveEnds beyond cx name span log r log₁) : r = .ref d.name := by
    rcases hr.target fun e he => Option.some.inj (hresolves.symm.trans he) ▸ hkept with ⟨e, he, rfl⟩ | ⟨hnone, -⟩
    · cases hresolves.symm.trans he
      rfl
    · cases hresolves.symm.trans hnone
  cases name_ends h with
  | array ha => exact absurd ha harray
  | operator hop _ => cases hoperator.symm.trans hop
  | ref _ _ hr =>
    cases htarget hr
    exact ⟨_, rfl, rfl⟩
  | inlined _ _ hr => cases htarget hr

/-- Where the declaration is inlined, a plain name is decoded to what the declaration is. -/
theorem type_inlined {outer : Path} {t : TypeExpr} {name : String} {d : Declaration} {node : Option Node}
    (hrefers : cx.table.Refers cx.scope t name d) (hhidden : d.exported = false)
    (hinline : cx.options.nonExported = .inline) (h : Ends (Decode.type beyond cx outer t) log node log') :
    Ends (beyond.inline cx d t.span) log node log' := by
  obtain ⟨hplain, harray, hoperator, hresolves⟩ := hrefers
  obtain ⟨kind, doc, span⟩ := t
  subst hplain
  cases name_ends h with
  | array ha => exact absurd ha harray
  | operator hop _ => cases hoperator.symm.trans hop
  | ref _ _ hr =>
    cases hr with
    | unknown hr => cases hresolves.symm.trans hr
    | exported hr he =>
      cases hresolves.symm.trans hr
      simp [hhidden] at he
    | noted _ _ hp => simp [hinline] at hp
    | hidden _ _ _ hp => exact absurd hinline hp
  | inlined _ _ hr =>
    cases hr with
    | inlined hr _ _ hn =>
      cases hresolves.symm.trans hr
      exact hn

/-- The node of an interface: an intersection if its heritage is decoded to anything, and its own members otherwise. -/
theorem declaration_interface {d : Declaration} {i : Interface} {node : Option Node} (hbody : d.body = .interface i)
    (hgeneric : i.typeParams.isEmpty) (h : Ends (declaration beyond cx d) log node log') :
    ∃ parents own log₁, Ends (types beyond cx [.other, .declaration d.name] i.heritage) log parents log₁ ∧
      Ends (members beyond cx [.declaration d.name] {} i.members) log₁ own log' ∧
      node = some ((if parents.isEmpty then own.node else .of (.and (parents ++ [own.node]))).layer
        (DocComment.read d.doc [.declaration d.name])) := by
  cases declaration_ends h with
  | generic hg _ => simp [Declaration.isGeneric, hbody, hgeneric] at hg
  | typeAlias _ hbody' _ => cases hbody.symm.trans hbody'
  | interface _ hbody' hparents hown =>
    cases DeclarationBody.interface.inj (hbody.symm.trans hbody')
    exact ⟨_, _, _, hparents, hown, rfl⟩

end Decode

namespace Table

variable {cx : Context}

/-- What is inherited has the outline that can be read off the text, if this holds of each expansion. -/
theorem Inherits.inherited {beyond : Beyond} {scope : List String} {o o' : Outline} {parents : List TypeExpr}
    (h : cx.table.Inherits scope o parents o') (hscope : cx.scope = scope)
    (hexpand : ∀ {e more span found log log'}, cx.table.Outlined e more →
      Ends (beyond.expand cx e span) log found log' → ∃ shape : Shape, found = some shape ∧ shape.outline = more)
    {shape shape' : Shape} {log log' : Log} (hshape : shape.outline = o)
    (hends : Ends (Decode.inherited beyond cx shape parents) log shape' log') : shape'.outline = o' := by
  match h with
  | .nil =>
    obtain ⟨rfl, -⟩ := Ends.pure_iff.mp hends
    exact hshape
  | .cons hrefers hmore hrest =>
    rw [Decode.inherited_named (hscope ▸ hrefers.names), Ends.bind_iff] at hends
    obtain ⟨found, log₁, hfound, hends⟩ := hends
    obtain ⟨more, rfl, rfl⟩ := hexpand hmore hfound
    subst hshape
    exact hrest.inherited hscope hexpand (shape.outline_extend more) hends

/-- An interface is expanded to its outline, wherever that is and whatever is inlined. -/
theorem Outlined.expand {d : Declaration} {o : Outline} (h : cx.table.Outlined d o) {depth : Nat}
    {path scope entered : List String} {span : Option Span} {found : Option Shape} {log log' : Log}
    (hends : Ends ((Beyond.within depth).expand (cx.moved path scope entered) d span) log found log') :
    ∃ shape, found = some shape ∧ shape.outline = o := by
  induction depth generalizing d o path scope entered span found log log' with
  | zero => exact (Ends.throw_iff.mp hends).elim
  | succ depth ih =>
    cases h with
    | intro hbody hgeneric hbase =>
    obtain ⟨-, base, log₁, own, hinherited, hown, rfl⟩ := (Beyond.expand_interface_iff hbody hgeneric).mp hends
    have hinside : (cx.moved path d.scope (d.name :: entered)).table.Inherits d.scope {} _ _ := hbase
    have hbase' := hinside.inherited rfl (fun he hfound => ih he hfound) (show ({} : Shape).outline = {} from rfl)
      hinherited
    refine ⟨_, rfl, ?_⟩
    rw [Shape.outline_extend, hbase', Decode.outline_members hown]
    rfl

/-- A plain name of such an interface is not left out. -/
theorem Lineage.type_some {e : Declaration} (h : cx.table.Lineage e) {depth : Nat} {outer : Path} {t : TypeExpr}
    {name : String} (hrefers : cx.table.Refers cx.scope t name e) {node : Option Node} {log log' : Log}
    (hends : Ends (Decode.type (.within depth) cx outer t) log node log') : node.isSome := by
  by_cases hkept : e.exported ∨ cx.options.nonExported ≠ .inline
  · obtain ⟨n, rfl, -⟩ := Decode.type_kept hrefers hkept hends
    rfl
  · obtain ⟨hhidden, hinline⟩ := not_or.mp hkept
    have hinlined := Decode.type_inlined hrefers (by simpa using hhidden) (not_not.mp hinline) hends
    obtain ⟨inner, -, -, hinner⟩ := Beyond.inline_ends hinlined
    cases h with
    | intro hbody hgeneric _ _ =>
      obtain ⟨_, _, _, -, -, rfl⟩ := Decode.declaration_interface hbody hgeneric hinner
      rfl

/-- An interface that extends others is inlined as an intersection, and one that does not as an object. -/
theorem Lineage.inline {d : Declaration} (h : cx.table.Lineage d) {i : Interface} (hbody : d.body = .interface i)
    {depth : Nat} {span : Option Span} {node : Option Node} {log log' : Log}
    (hends : Ends ((Beyond.within depth).inline cx d span) log node log') :
    ∃ n, node = some n ∧ (i.heritage = [] → n.outline? = some (.own i)) ∧
      (i.heritage ≠ [] → ∃ parts, n.kind = .and parts) := by
  obtain ⟨inner, -, -, hinner⟩ := Beyond.inline_ends hends
  cases h with
  | intro hbody' hgeneric hrefers hlineage =>
  cases DeclarationBody.interface.inj (hbody.symm.trans hbody')
  obtain ⟨parents, own, log₁, hparents, hown, rfl⟩ := Decode.declaration_interface hbody hgeneric hinner
  refine ⟨_, rfl, fun hnone => ?_, fun hsome => ?_⟩
  · rw [hnone] at hparents
    obtain ⟨rfl, -⟩ := Ends.pure_iff.mp hparents
    rw [List.isEmpty_nil, if_pos rfl, Node.outline?_layer, Shape.outline?_node, Decode.outline_members hown]
    rfl
  · obtain ⟨parent, rest, hheritage⟩ := List.exists_cons_of_ne_nil hsome
    have hparent : parent ∈ i.heritage := hheritage ▸ List.mem_cons_self
    obtain ⟨name, e, he⟩ := hrefers parent hparent
    rw [hheritage, Decode.types] at hparents
    simp only [Ends.bind_iff] at hparents
    obtain ⟨first, log₂, hfirst, others, log₃, -, hparents⟩ := hparents
    obtain ⟨rfl, -⟩ := Ends.pure_iff.mp hparents
    have hinside : (cx.inside d).table.Lineage e := hlineage parent hparent name e he
    obtain ⟨n, rfl⟩ := Option.isSome_iff_exists.mp (hinside.type_some he hfirst)
    exact ⟨_, rfl⟩

end Table

namespace Decode

variable {beyond : Beyond} {cx : Context} {op : Operator} {subject : Node} {subjectSpan span : Option Span}
  {found : Option Shape} {log log' : Log}

theorem SubjectEnds.eq_own {shape : Shape} (h : SubjectEnds beyond cx op subject subjectSpan span log found log')
    (hsubject : subject.shape? = some shape) : found = some shape := by
  have hkind := Node.shape?_eq_some_iff.mp hsubject
  cases h with
  | own hshape => rw [← hshape, hsubject]
  | named hk _ _ | shapeless hk _ _ _ | unknown hk _ _ => cases hkind.symm.trans hk
  | other hnone _ _ => cases hsubject.symm.trans hnone

theorem SubjectEnds.expand {name : String} {d : Declaration}
    (h : SubjectEnds beyond cx op subject subjectSpan span log found log') (hsubject : subject.kind = .ref name)
    (hget : cx.table.get? name = some d) :
    ∃ shape log₁, Ends (beyond.expand cx d subjectSpan) log shape log₁ ∧ (shape.isSome → found = shape) := by
  cases h with
  | own hshape => cases hsubject.symm.trans (Node.shape?_eq_some_iff.mp hshape)
  | named hk hg hf =>
    cases hsubject.symm.trans hk
    cases hget.symm.trans hg
    exact ⟨_, _, hf, fun _ => rfl⟩
  | shapeless hk hg hf _ =>
    cases hsubject.symm.trans hk
    cases hget.symm.trans hg
    exact ⟨_, _, hf, nofun⟩
  | unknown hk hg _ =>
    cases hsubject.symm.trans hk
    cases hget.symm.trans hg
  | other _ hk _ => exact absurd hsubject (hk name)

theorem SubjectEnds.eq_none {parts : List Node} (h : SubjectEnds beyond cx op subject subjectSpan span log found log')
    (hsubject : subject.kind = .and parts) : found = none := by
  cases h with
  | own hshape => cases hsubject.symm.trans (Node.shape?_eq_some_iff.mp hshape)
  | named hk _ _ => cases hsubject.symm.trans hk
  | shapeless _ _ _ _ | unknown _ _ _ | other _ _ _ => rfl

end Decode

namespace Context

variable {cx : Context} {t i : Declaration} {w : Wrapper} {subject : TypeExpr} {name : String} {decl : Interface}
  {o : Outline}

/-- An interface is inlined and extends others, so that an intersection stands in place of its name. -/
structure Splits (cx : Context) (i : Declaration) (decl : Interface) : Prop where
  hidden : i.exported = false
  inlined : cx.options.nonExported = .inline
  extending : decl.heritage ≠ []

/-- The shape that an operator finds under the plain name of an interface. -/
theorem subject_ends (hrefers : cx.table.Refers cx.scope subject name i) (hbody : i.body = .interface decl)
    (hi : cx.table.Lineage i) (ho : cx.table.Outlined i o) {depth : Nat} {outer : Path} {node : Option Node}
    {log log' : Log} (hnode : Ends (Decode.type (.within depth) cx outer subject) log node log') :
    ∃ n, node = some n ∧ ∀ {op subjectSpan span log found log'},
      Decode.SubjectEnds (.within depth) cx op n subjectSpan span log found log' →
        (¬cx.Splits i decl → found.map Shape.outline = some o) ∧ (cx.Splits i decl → found = none) := by
  by_cases hkept : i.exported ∨ cx.options.nonExported ≠ .inline
  · obtain ⟨n, rfl, hn⟩ := Decode.type_kept hrefers hkept hnode
    have hwhole : ¬cx.Splits i decl := fun h => hkept.elim (by simp [h.hidden]) fun hp => hp h.inlined
    refine ⟨n, rfl, fun hshape => ⟨fun _ => ?_, fun h => absurd h hwhole⟩⟩
    obtain ⟨shape, _, hexpand, hfound⟩ := hshape.expand hn hrefers.names.get?
    obtain ⟨shape, rfl, rfl⟩ := ho.expand
      (show Ends ((Beyond.within _).expand (cx.moved cx.path cx.scope cx.entered) i _) _ _ _ from hexpand)
    rw [hfound rfl]
    rfl
  · obtain ⟨hhidden, hinline⟩ : i.exported = false ∧ cx.options.nonExported = .inline := by simpa using hkept
    obtain ⟨n, rfl, hobject, hand⟩ := hi.inline hbody (Decode.type_inlined hrefers hhidden hinline hnode)
    refine ⟨n, rfl, fun hshape => ⟨fun h => ?_, fun h => ?_⟩⟩
    · have hnone : decl.heritage = [] := by_contra fun hsome => h ⟨hhidden, hinline, hsome⟩
      obtain ⟨shape, hn, hown⟩ := Option.map_eq_some_iff.mp (hobject hnone)
      rw [hshape.eq_own hn, Option.map_some, hown, ho.eq_own hbody hnone]
    · obtain ⟨parts, hn⟩ := hand h.extending
      exact hshape.eq_none hn

/-- An alias of an operator on an interface is an object, with what the operator leaves of the outline of the interface;
only where the interface is inlined and extends others, nothing is left of it. -/
theorem decodeTop_around {a : Alias} (halias : t.body = .typeAlias a) (hgeneric : a.typeParams.isEmpty)
    (hvalue : a.value = w.around subject) (hrefers : cx.table.Refers t.scope subject name i)
    (hbody : i.body = .interface decl) (hi : cx.table.Lineage i) (ho : cx.table.Outlined i o) {result : Option Node}
    {log log' : Log} (hends : Ends (cx.decodeTop t) log result log') :
    ∃ node, result = some node ∧
      (¬cx.Splits i decl → node.outline? = some (o.under w.use)) ∧ (cx.Splits i decl → node.kind = .any) := by
  simp only [decodeTop, Decode.declaration, Declaration.isGeneric, halias, hgeneric, hvalue, Bool.not_true,
    Bool.false_eq_true, if_false, Ends.bind_iff] at hends
  obtain ⟨value, log₁, hvalue, hends⟩ := hends
  obtain ⟨rfl, rfl⟩ := Ends.pure_iff.mp hends
  obtain ⟨node, log₂, hnode, hoperator⟩ := Decode.around_ends_some hvalue
  have hmoved : (cx.moved [t.name] t.scope []).table.Refers t.scope subject name i := hrefers
  obtain ⟨n, rfl, hsubject⟩ := subject_ends hmoved hbody hi ho hnode
  obtain ⟨found, hshape, rfl⟩ := hoperator n rfl
  obtain ⟨hsome, hnone⟩ := hsubject hshape
  refine ⟨_, rfl, fun h => ?_, fun h => ?_⟩
  · obtain ⟨shape, rfl, rfl⟩ := Option.map_eq_some_iff.mp (hsome fun hs => h ⟨hs.hidden, hs.inlined, hs.extending⟩)
    rw [← shape.outline_apply]
    rfl
  · rw [hnone ⟨h.hidden, h.inlined, h.extending⟩]
    rfl

end Context

/-- What is exported is a type of the document, unless it is left out. -/
theorem Convert.exported_ends {cx : Context} {hoistedAway : List String} {p : Progress} {log : Log}
    (h : Ends (progress cx hoistedAway) {} p log) {d : Declaration} (hd : d ∈ cx.table.declarations)
    (hexported : d.exported) :
    ∃ result log', Ends (cx.decodeTop d) {} result log' ∧ ∀ node, result = some node → ⟨d.name, node⟩ ∈ p.types := by
  obtain ⟨hdec, hrounds⟩ := progress_ends_iff.mp h
  have hselected : d ∈ cx.table.declarations.filter (isSelected cx.options) :=
    List.mem_filter.mpr ⟨hd, by simp [isSelected, hexported]⟩
  obtain ⟨result, hresult⟩ := hdec d hselected
  refine ⟨result, (cx.alone d).2, Prod.ext hresult rfl, ?_⟩
  rintro node rfl
  apply (rounds_extends hrounds).1.subset
  apply List.mem_append_right
  exact List.mem_filterMap.mpr ⟨d, hselected, by rw [Context.type?, hresult]⟩

/-- An exported alias of an operator on an interface, in a file that can be converted where declarations that are not
exported are inlined, and where they are included if they are referenced. If the interface extends nothing but plain
names of interfaces, and never itself, then the alias is an object in the second document, and it has the properties in
the order and as required as the text of the interface and of what it extends says, less what the operator leaves out. If
the interface is exported or extends nothing, this is so in the first document too. Otherwise it is inlined as an
intersection, of which the operator leaves no properties at all. -/
theorem SourceFile.convert_operator_policies (file : SourceFile) (source : String) (options : ReadOptions)
    {t i : Declaration} {a : Alias} {decl : Interface} {w : Wrapper} {subject : TypeExpr} {name : String}
    (ht : t ∈ (Table.collect options.namespaces file).1.declarations) (hexported : t.exported)
    (halias : t.body = .typeAlias a) (hgeneric : a.typeParams.isEmpty) (hvalue : a.value = w.around subject)
    (hrefers : (Table.collect options.namespaces file).1.Refers t.scope subject name i) (hbody : i.body = .interface decl)
    (hi : (Table.collect options.namespaces file).1.Lineage i) {inlined kept : Conversion Document}
    (hinlined : (file.convert source { options with nonExported := .inline }).result = .ok inlined)
    (hkept : (file.convert source { options with nonExported := .includeIfReferenced }).result = .ok kept) :
    ∃ outline node node', (Table.collect options.namespaces file).1.Outlined i outline ∧
      ⟨t.name, node⟩ ∈ inlined.data.types ∧ ⟨t.name, node'⟩ ∈ kept.data.types ∧
      node'.outline? = some (outline.under w.use) ∧
      (i.exported ∨ decl.heritage = [] → node.outline? = some (outline.under w.use)) ∧
      (¬(i.exported ∨ decl.heritage = []) → node.kind = .any) := by
  obtain ⟨o, ho⟩ := hi.exists_outlined
  obtain ⟨p, log, hends, rfl⟩ := (convert_selecting_iff (by decide)).mp hinlined
  obtain ⟨p', log', hends', rfl⟩ := (convert_selecting_iff (by decide)).mp hkept
  obtain ⟨result, _, htop, hmem⟩ := Convert.exported_ends hends ht hexported
  obtain ⟨result', _, htop', hmem'⟩ := Convert.exported_ends hends' ht hexported
  obtain ⟨node, rfl, hwhole, hsplit⟩ :=
    Context.decodeTop_around halias hgeneric hvalue hrefers hbody hi ho htop
  obtain ⟨node', rfl, hwhole', -⟩ :=
    Context.decodeTop_around halias hgeneric hvalue hrefers hbody hi ho htop'
  refine ⟨o, node, node', ho, hmem node rfl, hmem' node' rfl, hwhole' (fun h => ?_), fun h => hwhole fun hs => ?_,
    fun h => hsplit ?_⟩
  · cases h.inlined
  · rcases h with hshown | hnone
    · exact absurd (hs.hidden.symm.trans hshown) (by decide)
    · exact hs.extending hnone
  · obtain ⟨hhidden, hextending⟩ := not_or.mp h
    exact ⟨by simpa using hhidden, rfl, hextending⟩

/-- A tray and a lid extend a box, and only the tray is exported. What is left of the tray is the same object in both
documents; the lid is inlined, and lost. -/
theorem SourceFile.convert_operator_policies_boxes :
    let property (name : String) (optional : Bool) : Member :=
      .property name optional (some (.keyword .string)) none none
    let box : Interface := { name := "Box", members := [property "width" false] }
    let tray : Interface := {
      name := "Tray", exported := true, heritage := [.reference "Box"], members := [property "rim" true] }
    let lid : Interface := { name := "Lid", heritage := [.reference "Box"], members := [property "knob" false] }
    let file : SourceFile := ⟨[.interface box, .interface tray, .interface lid,
      .typeAlias {
        name := "Flat", exported := true
        value := .of (.reference "Omit" false [.reference "Tray", .literal (.string "rim")]) },
      .typeAlias { name := "Loose", exported := true, value := .of (.reference "Partial" false [.reference "Lid"]) }]⟩
    let run (policy : NonExportedPolicy) := (file.convert "" { nonExported := policy }).result
    ∃ inlined kept, run .inline = .ok inlined ∧ run .includeIfReferenced = .ok kept ∧
      (∃ node node', ⟨"Flat", node⟩ ∈ inlined.data.types ∧ ⟨"Flat", node'⟩ ∈ kept.data.types ∧
        node.outline? = some ⟨[("width", true)], false⟩ ∧ node'.outline? = some ⟨[("width", true)], false⟩) ∧
      ∃ node node', ⟨"Loose", node⟩ ∈ inlined.data.types ∧ ⟨"Loose", node'⟩ ∈ kept.data.types ∧
        node.kind = .any ∧ node'.outline? = some ⟨[("width", false), ("knob", false)], false⟩ := by
  intro property box tray lid file run
  obtain ⟨inlined, hinlined, -⟩ : ∃ c, run .inline = .ok c ∧ c.converted = ["Tray", "Flat", "Loose"] :=
    Conversion.exists_of_names (by decide +kernel)
  obtain ⟨kept, hkept, -⟩ : ∃ c, run .includeIfReferenced = .ok c ∧
      c.converted = ["Tray", "Flat", "Loose", "Box"] :=
    Conversion.exists_of_names (by decide +kernel)
  let boxed : Declaration := ⟨"Box", [], false, .interface box⟩
  let trayed : Declaration := ⟨"Tray", [], true, .interface tray⟩
  let lidded : Declaration := ⟨"Lid", [], false, .interface lid⟩
  let table : Table := (Table.collect .ignore file).1
  have hbox : table.Refers [] (.reference "Box") "Box" boxed := ⟨rfl, by decide, by decide, rfl⟩
  have hboxed : table.Lineage boxed := .intro rfl rfl (by simp [box]) (by simp [box])
  have hextends : ∀ parent ∈ [TypeExpr.reference "Box"], ∃ name e, table.Refers [] parent name e := by
    intro parent hparent
    cases List.mem_singleton.mp hparent
    exact ⟨_, _, hbox⟩
  have hlineage : ∀ parent ∈ [TypeExpr.reference "Box"], ∀ name e, table.Refers [] parent name e → table.Lineage e := by
    intro parent hparent name e he
    cases List.mem_singleton.mp hparent
    exact he.names.unique hbox.names ▸ hboxed
  have hinherits := Table.Inherits.cons (o := {}) hbox (.intro rfl rfl .nil) .nil
  let dropped : Wrapper := { use := .drop ⟨.literal (.string "rim"), _, .literal "rim" none none⟩ }
  let loosened : Wrapper := { use := .loosen }
  have halias : ∀ d ∈ table.declarations.drop 3, d ∈ table.declarations := fun _ hd => List.mem_of_mem_drop hd
  refine ⟨inlined, kept, hinlined, hkept, ?_, ?_⟩
  · have htray : table.Refers [] (.reference "Tray") "Tray" trayed := ⟨rfl, by decide, by decide, rfl⟩
    obtain ⟨o, node, node', ho, hnode, hnode', hsame', hsame, -⟩ :=
      file.convert_operator_policies "" {} (w := dropped) (halias _ List.mem_cons_self) rfl rfl rfl rfl htray rfl
        (.intro rfl rfl hextends hlineage) hinlined hkept
    cases ho.unique (.intro rfl rfl hinherits)
    exact ⟨node, node', hnode, hnode', hsame (.inl rfl), hsame'⟩
  · have hlid : table.Refers [] (.reference "Lid") "Lid" lidded := ⟨rfl, by decide, by decide, rfl⟩
    obtain ⟨o, node, node', ho, hnode, hnode', hsame', -, hlost⟩ :=
      file.convert_operator_policies "" {} (w := loosened) (halias _ (List.mem_cons_of_mem _ List.mem_cons_self)) rfl rfl
        rfl rfl hlid rfl (.intro rfl rfl hextends hlineage) hinlined hkept
    cases ho.unique (.intro rfl rfl hinherits)
    exact ⟨node, node', hnode, hnode', hlost (by simp [lidded, lid]), hsame'⟩

end TypeSchema
