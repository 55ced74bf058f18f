import Mathlib.Logic.Relation
import TypeSchema.Proofs.Entering
import TypeSchema.Proofs.OperatorNests
import TypeSchema.Proofs.Termination

namespace TypeSchema

namespace Entries

variable {α : Type}

theorem mem_names_put {name other : String} {value : α} {entries : Entries α} :
    other ∈ (put name value entries).names ↔ other = name ∨ other ∈ entries.names := by
  rw [names_put]
  split
  · next hm =>
    constructor
    · exact .inr
    · rintro (rfl | h)
      · exact hm
      · exact h
  · rw [List.mem_append, List.mem_singleton, or_comm]

theorem mem_names_extend {entries later : Entries α} {name : String} :
    name ∈ (entries.extend later).names ↔ name ∈ entries.names ∨ name ∈ later.names := by
  induction later generalizing entries with
  | nil => simp [extend, names]
  | cons entry rest ih =>
    have hrest : (entries.extend (entry :: rest)) = (put entry.1 entry.2 entries).extend rest := rfl
    rw [hrest, ih, mem_names_put]
    simp only [names, List.map_cons, List.mem_cons]
    tauto

end Entries

/-- The name of a property, if it has a type. -/
def Member.propertyName? : Member → Option String
  | .property name _ (some _) _ _ => some name
  | _ => none

/-- The names of the properties of an interface. -/
def Interface.propertyNames (i : Interface) : List String := i.members.filterMap Member.propertyName?

/-- Members are decoded to properties of their names. -/
theorem Decode.mem_names_members {beyond : Beyond} {cx : Context} {path : Path} {shape shape' : Shape}
    {ms : List Member} {log log' : Log} (h : Ends (members beyond cx path shape ms) log shape' log') (name : String) :
    name ∈ shape'.properties.names ↔
      name ∈ shape.properties.names ∨ name ∈ ms.filterMap Member.propertyName? := by
  induction ms generalizing shape log with
  | nil =>
    obtain ⟨rfl, -⟩ := Ends.pure_iff.mp h
    simp
  | cons m rest ih =>
    match m with
    | .property key optional (some t) doc span =>
      simp only [members, Ends.bind_iff] at h
      obtain ⟨node, log₁, -, h⟩ := h
      rw [ih h]
      simp only [Entries.mem_names_put, List.filterMap_cons, Member.propertyName?, List.mem_cons]
      tauto
    | .property key optional none doc span => exact ih h
    | .index param key value doc span =>
      simp only [members] at h
      split at h
      · simp only [Ends.bind_iff] at h
        obtain ⟨node, log₁, -, h⟩ := h
        have hrest := ih h
        exact hrest
      · simp only [Ends.bind_iff] at h
        obtain ⟨_, log₁, -, h⟩ := h
        exact ih h
    | .other span => exact ih h

namespace Table

/-- A type names a declaration, whatever its arguments are. -/
def Names (table : Table) (scope : List String) (t : TypeExpr) (d : Declaration) : Prop :=
  ∃ name qualified args, t.kind = .reference name qualified args ∧ table.resolve? scope name = some d

theorem Names.unique {table : Table} {scope : List String} {t : TypeExpr} {d e : Declaration}
    (hd : table.Names scope t d) (he : table.Names scope t e) : d = e := by
  obtain ⟨name, qualified, args, hkind, hresolve⟩ := hd
  obtain ⟨name', qualified', args', hkind', hresolve'⟩ := he
  cases hkind.symm.trans hkind'
  exact Option.some.inj (hresolve.symm.trans hresolve')

theorem Names.get? {table : Table} {scope : List String} {t : TypeExpr} {d : Declaration}
    (h : table.Names scope t d) : table.get? d.name = some d := by
  obtain ⟨_, _, _, _, hresolve⟩ := h
  exact get?_of_resolve? hresolve

/-- An entry of the heritage of an interface names a declaration. -/
inductive Extends (table : Table) (d e : Declaration) : Prop
  | intro {i : Interface} {parent : TypeExpr} : d.body = .interface i → i.typeParams.isEmpty → parent ∈ i.heritage →
      table.Names d.scope parent e → Extends table d e

/-- The names of the properties that are seen in an interface where it is expanded. -/
inductive Seen (table : Table) : Declaration → String → Prop
  | own {d : Declaration} {i : Interface} {name : String} : d.body = .interface i → name ∈ i.propertyNames →
      Seen table d name
  | inherited {d e : Declaration} {name : String} : table.Extends d e → Seen table e name → Seen table d name

theorem seen_iff {table : Table} {d : Declaration} {i : Interface} {name : String} (hbody : d.body = .interface i)
    (hgeneric : i.typeParams.isEmpty) : table.Seen d name ↔
      (∃ parent ∈ i.heritage, ∃ e, table.Names d.scope parent e ∧ table.Seen e name) ∨ name ∈ i.propertyNames := by
  constructor
  · intro h
    cases h with
    | own hbody' hname =>
      cases DeclarationBody.interface.inj (hbody.symm.trans hbody')
      exact .inr hname
    | inherited hextends hseen =>
      obtain ⟨hbody', -, hparent, hnames⟩ := hextends
      cases DeclarationBody.interface.inj (hbody.symm.trans hbody')
      exact .inl ⟨_, hparent, _, hnames, hseen⟩
  · rintro (⟨parent, hparent, e, hnames, hseen⟩ | hname)
    · exact .inherited ⟨hbody, hgeneric, hparent, hnames⟩ hseen
    · exact .own hbody hname

/-- No declaration bears the name of an operator. -/
def SparesOperators (table : Table) : Prop :=
  ∀ d ∈ table.declarations, ∀ op : Operator, table.resolve? d.scope op.name = none

end Table

namespace Context

/-- An entry of the heritage of a declaration is decoded to that node. -/
def Entry (cx : Context) (d : Declaration) (parent : TypeExpr) (node : Node) : Prop :=
  ∃ log log', Ends (Decode.type (.within cx.table.declarations.length) (cx.moved [d.name] d.scope [])
    [.other, .declaration d.name] parent) log (some node) log'

mutual

/-- An interface without type parameters that is decoded, and the entries of its heritage too: to objects, or to
references to such interfaces. -/
inductive Regular (cx : Context) : Declaration → Prop
  | intro {d : Declaration} {i : Interface} : d.body = .interface i → i.typeParams.isEmpty →
      (∃ log node log', Ends (cx.decodeTop d) log (some node) log') →
      (∀ parent ∈ i.heritage, RegularEntry cx d parent) → Regular cx d

inductive RegularEntry (cx : Context) : Declaration → TypeExpr → Prop
  | object {d : Declaration} {parent : TypeExpr} {node : Node} {shape : Shape} : cx.Entry d parent node →
      node.shape? = some shape → RegularEntry cx d parent
  | ref {d : Declaration} {parent : TypeExpr} {node : Node} {e : Declaration} : cx.Entry d parent node →
      node.kind = .ref e.name → cx.table.get? e.name = some e → Regular cx e → RegularEntry cx d parent

end

/-- The names of the properties that an interface is decoded with: its own, and those of the objects and of the
interfaces that its heritage is decoded to. -/
inductive Has (cx : Context) : Declaration → String → Prop
  | own {d : Declaration} {i : Interface} {name : String} : d.body = .interface i → name ∈ i.propertyNames →
      Has cx d name
  | object {d : Declaration} {i : Interface} {parent : TypeExpr} {node : Node} {shape : Shape} {name : String} :
      d.body = .interface i → parent ∈ i.heritage → cx.Entry d parent node → node.shape? = some shape →
      name ∈ shape.properties.names → Has cx d name
  | ref {d e : Declaration} {i : Interface} {parent : TypeExpr} {node : Node} {name : String} :
      d.body = .interface i → parent ∈ i.heritage → cx.Entry d parent node → node.kind = .ref e.name →
      cx.table.get? e.name = some e → Has cx e name → Has cx d name

end Context

/-- Where nothing is inlined, a reference is decoded to an array, to what an operator makes of its arguments, or to a
reference. -/
theorem Decode.reference_ends {beyond : Beyond} {cx : Context} {outer : Path} {name : String} {qualified : Bool}
    {args : List TypeExpr} {doc : Option String} {span : Option Span} {log log' : Log} {node : Node}
    (hp : cx.options.nonExported ≠ .inline)
    (h : Ends (Decode.type beyond cx outer ⟨.reference name qualified args, doc, span⟩) log (some node) log') :
    (∃ element, node.kind = .array element) ∨ (∃ op : Operator, op.name = name ∧ args ≠ []) ∨
      (∃ d, cx.table.resolve? cx.scope name = some d ∧ node.kind = .ref d.name) ∨
      (cx.table.resolve? cx.scope name = none ∧ node.kind = .ref name) := by
  match qualified, args with
  | true, args =>
    simp only [Decode.type] at h
    cases (Context.unsupported_ends h).1
  | false, [] =>
    cases name_ends h with
    | array _ => exact .inl ⟨_, rfl⟩
    | ref _ _ hr =>
      rcases hr.target fun _ _ => .inr hp with ⟨d, hresolve, heq⟩ | ⟨hresolve, heq⟩
      · cases heq
        exact .inr (.inr (.inl ⟨d, hresolve, rfl⟩))
      · cases heq
        exact .inr (.inr (.inr ⟨hresolve, rfl⟩))
    | inlined _ _ hr => rcases hr.target fun _ _ => .inr hp with ⟨_, _, heq⟩ | ⟨_, heq⟩ <;> cases heq
  | false, subject :: keys =>
    cases application_ends h with
    | array _ _ _ => exact .inl ⟨_, rfl⟩
    | @operator op _ _ _ _ hop _ _ _ =>
      have hname : op.name = name := by simpa using List.find?_some hop
      exact .inr (.inl ⟨op, hname, by simp⟩)

namespace Context

variable {cx : Context} {d e : Declaration}

section

variable (hp : cx.options.nonExported ≠ .inline) (hspares : cx.table.SparesOperators) (hd : d ∈ cx.table.declarations)
  {parent : TypeExpr} (hnames : cx.table.Names d.scope parent e)
include hp hspares hd hnames

/-- An entry of the heritage that names a declaration is decoded to a reference to it, if it is no array. -/
theorem Entry.named {node : Node} (h : cx.Entry d parent node) :
    (∃ element, node.kind = .array element) ∨ node.kind = .ref e.name := by
  obtain ⟨name, qualified, args, hkind, hresolve⟩ := hnames
  obtain ⟨kind, doc, span⟩ := parent
  subst hkind
  obtain ⟨log, log', hends⟩ := h
  have hp' : (cx.moved [d.name] d.scope []).options.nonExported ≠ .inline := hp
  rcases Decode.reference_ends hp' hends with harray | ⟨op, rfl, -⟩ | ⟨f, hf, hnode⟩ | ⟨hnone, -⟩
  · exact .inl harray
  · exact absurd (hresolve.symm.trans (hspares d hd op)) (by simp)
  · cases hresolve.symm.trans hf
    exact .inr hnode
  · exact absurd (hresolve.symm.trans hnone) (by simp)

theorem Entry.not_object {node : Node} (h : cx.Entry d parent node) : node.shape? = none := by
  rcases h.named hp hspares hd hnames with ⟨element, hnode⟩ | hnode <;> simp [Node.shape?, hnode]

/-- The declaration that it is a reference to is the one that is named. -/
theorem Entry.eq_named {node : Node} {f : Declaration} (h : cx.Entry d parent node) (hnode : node.kind = .ref f.name)
    (hget : cx.table.get? f.name = some f) : f = e := by
  rcases h.named hp hspares hd hnames with ⟨element, harray⟩ | hnode'
  · cases hnode.symm.trans harray
  · rw [Kind.ref.inj (hnode.symm.trans hnode')] at hget
    exact Option.some.inj (hget.symm.trans hnames.get?)

/-- A regular entry that names a declaration is decoded to a reference to it, and it is regular. -/
theorem RegularEntry.named (h : cx.RegularEntry d parent) :
    ∃ node, cx.Entry d parent node ∧ node.kind = .ref e.name ∧ cx.Regular e := by
  cases h with
  | object hentry hshape =>
    rw [hentry.not_object hp hspares hd hnames] at hshape
    cases hshape
  | ref hentry hnode hget he =>
    cases hentry.eq_named hp hspares hd hnames hnode hget
    exact ⟨_, hentry, hnode, he⟩

end

/-- What a regular interface extends is regular. -/
theorem Regular.extended (hp : cx.options.nonExported ≠ .inline) (hspares : cx.table.SparesOperators)
    (hd : d ∈ cx.table.declarations) (h : cx.Regular d) (he : cx.table.Extends d e) : cx.Regular e := by
  obtain ⟨hbody, -, hparent, hnames⟩ := he
  cases h with
  | intro hbody' _ _ hentries =>
    cases DeclarationBody.interface.inj (hbody.symm.trans hbody')
    obtain ⟨-, -, -, he⟩ := (hentries _ hparent).named hp hspares hd hnames
    exact he

mutual

/-- What a regular interface extends, and what that extends, comes to an end. -/
theorem Regular.acc (hp : cx.options.nonExported ≠ .inline) (hspares : cx.table.SparesOperators) {f : Declaration}
    (hf : f ∈ cx.table.declarations) (h : cx.Regular f) : Acc (fun e d => cx.table.Extends d e) f := by
  match h with
  | .intro hbody _ _ hentries =>
    apply Acc.intro
    intro g hg
    obtain ⟨hbody', -, hparent, hnames⟩ := hg
    rw [DeclarationBody.interface.inj (hbody'.symm.trans hbody)] at hparent
    exact (hentries _ hparent).acc hp hspares hf hnames

theorem RegularEntry.acc (hp : cx.options.nonExported ≠ .inline) (hspares : cx.table.SparesOperators)
    {f g : Declaration} (hf : f ∈ cx.table.declarations) {parent : TypeExpr} (h : cx.RegularEntry f parent)
    (hnames : cx.table.Names f.scope parent g) : Acc (fun e d => cx.table.Extends d e) g := by
  match h with
  | .object hentry hshape =>
    rw [hentry.not_object hp hspares hf hnames] at hshape
    cases hshape
  | .ref hentry hnode hget hg =>
    have hacc := hg.acc hp hspares (Table.name_of_get? hget).2
    rwa [hentry.eq_named hp hspares hf hnames hnode hget] at hacc

end

end Context

/-- What comes to an end does not extend itself, however far. -/
theorem Table.not_transGen_of_acc {table : Table} {d : Declaration} (h : Acc (fun e d => table.Extends d e) d) :
    ¬Relation.TransGen table.Extends d d := by
  induction h with
  | intro d _ ih =>
    intro hcycle
    obtain ⟨e, hde, hed⟩ := Relation.TransGen.head'_iff.mp hcycle
    exact ih e hde (Relation.TransGen.tail' hed hde)

namespace Decode

variable {beyond : Beyond} {cx : Context} {shape shape' : Shape} {parent : TypeExpr} {parents : List TypeExpr}
  {log log' : Log}

theorem inherited_named {e : Declaration} (h : cx.table.Names cx.scope parent e) :
    inherited beyond cx shape (parent :: parents) =
      beyond.expand cx e parent.span >>= fun more => inherited beyond cx (more.elim shape shape.extend) parents := by
  obtain ⟨name, qualified, args, hkind, hresolve⟩ := h
  obtain ⟨kind, doc, span⟩ := parent
  subst hkind
  rw [inherited_reference, hresolve]
  rfl

theorem inherited_unnamed (h : ∀ e, ¬cx.table.Names cx.scope parent e) :
    inherited beyond cx shape (parent :: parents) = inherited beyond cx shape parents := by
  obtain ⟨kind, doc, span⟩ := parent
  cases kind with
  | reference name qualified args =>
    have hnone : cx.table.resolve? cx.scope name = none := by
      cases hresolve : cx.table.resolve? cx.scope name with
      | none => rfl
      | some e => exact absurd ⟨name, qualified, args, rfl, hresolve⟩ (h e)
    rw [inherited_reference, hnone]
    rfl
  | _ => rfl

/-- What an entry of the heritage names has been expanded. -/
theorem inherited_expands {e : Declaration} (hm : parent ∈ parents) (hnames : cx.table.Names cx.scope parent e)
    (h : Ends (inherited beyond cx shape parents) log shape' log') :
    ∃ before more after, Ends (beyond.expand cx e parent.span) before more after := by
  induction parents generalizing shape log with
  | nil => cases hm
  | cons first rest ih =>
    by_cases hfirst : ∃ f, cx.table.Names cx.scope first f
    · obtain ⟨f, hf⟩ := hfirst
      rw [inherited_named hf, Ends.bind_iff] at h
      obtain ⟨more, log₁, hmore, h⟩ := h
      rcases List.mem_cons.mp hm with rfl | hrest
      · cases hf.unique hnames
        exact ⟨log, more, log₁, hmore⟩
      · exact ih hrest h
    · rw [inherited_unnamed (not_exists.mp hfirst)] at h
      rcases List.mem_cons.mp hm with rfl | hrest
      · exact absurd ⟨e, hnames⟩ hfirst
      · exact ih hrest h

end Decode

namespace Beyond

variable {cx : Context} {d : Declaration} {i : Interface} {path scope entered : List String} {span : Option Span}
  {log log' : Log}

/-- An interface is expanded to what it inherits, with its own members on top. -/
theorem expand_interface_iff (hbody : d.body = .interface i) (hgeneric : i.typeParams.isEmpty) {depth : Nat}
    {found : Option Shape} :
    Ends ((within (depth + 1)).expand (cx.moved path scope entered) d span) log found log' ↔
      d.name ∉ entered ∧ ∃ base log₁ own,
        Ends (Decode.inherited (within depth) (cx.moved path d.scope (d.name :: entered)) {} i.heritage) log base log₁ ∧
        Ends (Decode.members (within depth) (cx.moved path d.scope (d.name :: entered)) [.declaration d.name] {}
          i.members) log₁ own log' ∧
        found = some (base.extend own) := by
  by_cases hin : d.name ∈ entered
  · simp only [within, Context.moved, hin, if_true, not_true_eq_false, false_and, iff_false]
    exact fun h => (Ends.throw_iff.mp h).elim
  · simp only [within, Context.moved, hin, if_false, not_false_eq_true, true_and, Decode.shape, hbody, hgeneric,
      Bool.not_true, Bool.false_eq_true, Ends.bind_iff, Ends.pure_iff, Context.inside]
    constructor
    · rintro ⟨base, log₁, hbase, own, log₂, hown, rfl, rfl⟩
      exact ⟨base, log₁, own, hbase, hown, rfl⟩
    · rintro ⟨base, log₁, own, hbase, hown, rfl⟩
      exact ⟨base, log₁, hbase, own, log', hown, rfl, rfl⟩

/-- With an interface, what it extends is expanded inside it. -/
theorem expand_extended {e : Declaration} (he : cx.table.Extends d e) {depth : Nat} {found : Option Shape}
    (h : Ends ((within depth).expand (cx.moved path scope entered) d span) log found log') :
    ∃ depth span before more after,
      Ends ((within depth).expand (cx.moved path d.scope (d.name :: entered)) e span) before more after := by
  obtain ⟨hbody, hgeneric, hparent, hnames⟩ := he
  cases depth with
  | zero => exact (Ends.throw_iff.mp h).elim
  | succ depth =>
    obtain ⟨-, base, log₁, own, hbase, -, -⟩ := (expand_interface_iff hbody hgeneric).mp h
    obtain ⟨before, more, after, hmore⟩ := Decode.inherited_expands hparent hnames hbase
    exact ⟨depth, _, before, more, after, hmore⟩

end Beyond

namespace Context

variable {cx : Context} {d e : Declaration} {i : Interface} {entered : List String}

/-- The members of an interface itself are decoded after these have been entered. -/
def OwnDecoded (cx : Context) (d : Declaration) (i : Interface) (entered : List String) : Prop :=
  ∃ depth path log own log', Ends (Decode.members (.within depth) (cx.moved path d.scope entered)
    [.declaration d.name] {} i.members) log own log'

theorem ownDecoded_top (hbody : d.body = .interface i) (hgeneric : i.typeParams.isEmpty)
    (h : ∃ log node log', Ends (cx.decodeTop d) log (some node) log') : cx.OwnDecoded d i [] := by
  obtain ⟨log, node, log', hends⟩ := h
  simp only [decodeTop, Decode.declaration, Declaration.isGeneric, hbody, hgeneric, Bool.not_true, Bool.false_eq_true,
    if_false, Ends.bind_iff] at hends
  obtain ⟨parents, log₁, -, own, log₂, hown, -⟩ := hends
  exact ⟨_, _, log₁, own, log₂, hown⟩

theorem OwnDecoded.follow (hp : cx.options.nonExported ≠ .inline) {more : List String}
    (hcovers : cx.Covers entered more) (h : cx.OwnDecoded d i entered) : cx.OwnDecoded d i more := by
  obtain ⟨depth, path, log, own, log', hown⟩ := h
  obtain ⟨log'', hown'⟩ := Beyond.members_follow hp (Nat.le_refl depth) hcovers hown log
  exact ⟨depth, path, log, own, log'', hown'⟩

/-- The members of an interface are decoded wherever something is expanded that extends it. -/
theorem ownDecoded_of_expanded (hbody : d.body = .interface i) (hgeneric : i.typeParams.isEmpty)
    (h : Relation.ReflTransGen cx.table.Extends e d) {depth : Nat} {path scope : List String} {span : Option Span}
    {log log' : Log} {found : Option Shape}
    (hends : Ends ((Beyond.within depth).expand (cx.moved path scope entered) e span) log found log') :
    ∃ more, e.name ∈ more ∧ entered ⊆ more ∧ cx.OwnDecoded d i more := by
  -- from what is expanded down to the interface, so that more has been entered at each step
  induction h using Relation.ReflTransGen.head_induction_on
    generalizing depth path scope entered span log log' found with
  | refl =>
    cases depth with
    | zero => exact (Ends.throw_iff.mp hends).elim
    | succ depth =>
      obtain ⟨-, -, log₁, own, -, hown, -⟩ := (Beyond.expand_interface_iff hbody hgeneric).mp hends
      exact ⟨d.name :: entered, List.mem_cons_self, List.subset_cons_self _ _, depth, path, log₁, own, log', hown⟩
  | @head e f hextends _ ih =>
    obtain ⟨depth, span, before, found, after, hinner⟩ := Beyond.expand_extended hextends hends
    obtain ⟨more, -, hsub, hown⟩ := ih hinner
    exact ⟨more, hsub List.mem_cons_self, fun _ hm => hsub (List.mem_cons_of_mem _ hm), hown⟩

/-- They are decoded after one more interface has been entered that extends it. Were the members to lead back into that
interface, then so would its expansion, and none of them would come to an end. -/
theorem OwnDecoded.enter (hp : cx.options.nonExported ≠ .inline) (hbody : d.body = .interface i)
    (hgeneric : i.typeParams.isEmpty) {name : String}
    (hname : ∀ e, cx.table.get? name = some e → Relation.ReflTransGen cx.table.Extends e d)
    (h : cx.OwnDecoded d i entered) : cx.OwnDecoded d i (name :: entered) := by
  by_cases hstuck : cx.Stuck entered name
  · apply h.follow hp
    intro other hm
    rcases List.mem_cons.mp hm with rfl | hm
    · exact .inr hstuck
    · exact .inl hm
  · simp only [Stuck, not_forall, not_not] at hstuck
    obtain ⟨e, hget, depth, path, scope, more, span, log, found, log', hsub, hends⟩ := hstuck
    obtain ⟨further, hin, hfurther, hown⟩ := ownDecoded_of_expanded hbody hgeneric (hname e hget) hends
    rw [(Table.name_of_get? hget).1] at hin
    exact hown.follow hp (.of_subset (List.cons_subset.mpr ⟨hin, fun _ hm => hfurther (hsub hm)⟩))

/-- And after any number of them. -/
theorem OwnDecoded.enterAll (hp : cx.options.nonExported ≠ .inline) (hbody : d.body = .interface i)
    (hgeneric : i.typeParams.isEmpty) (h : cx.OwnDecoded d i [])
    (hnames : ∀ name ∈ entered, ∀ e, cx.table.get? name = some e → Relation.ReflTransGen cx.table.Extends e d) :
    cx.OwnDecoded d i entered := by
  induction entered with
  | nil => exact h
  | cons name rest ih =>
    have hrest := ih fun other hm => hnames other (List.mem_cons_of_mem _ hm)
    exact hrest.enter hp hbody hgeneric (hnames name List.mem_cons_self)

/-- With enough depth, a declaration is expanded after these have been entered, to the properties that are seen in
it. -/
def Expands (cx : Context) (entered : List String) (d : Declaration) : Prop :=
  ∃ least, ∀ depth ≥ least, ∀ path scope span log, ∃ shape log',
    Ends ((Beyond.within depth).expand (cx.moved path scope entered) d span) log (some shape) log' ∧
      ∀ property, property ∈ shape.properties.names ↔ cx.table.Seen d property

/-- An interface inherits what is seen in the declarations that its heritage names. -/
theorem inherited_ends (scope : List String) (parents : List TypeExpr)
    (h : ∀ parent ∈ parents, ∀ e, cx.table.Names scope parent e → cx.Expands entered e) :
    ∃ least, ∀ depth ≥ least, ∀ path shape log, ∃ shape' log',
      Ends (Decode.inherited (.within depth) (cx.moved path scope entered) shape parents) log shape' log' ∧
        ∀ property, property ∈ shape'.properties.names ↔ property ∈ shape.properties.names ∨
          ∃ parent ∈ parents, ∃ e, cx.table.Names scope parent e ∧ cx.table.Seen e property := by
  induction parents with
  | nil => exact ⟨0, fun depth _ path shape log => ⟨shape, log, Ends.pure_iff.mpr ⟨rfl, rfl⟩, by simp⟩⟩
  | cons parent rest ih =>
    obtain ⟨least, hrest⟩ := ih fun p hm => h p (List.mem_cons_of_mem _ hm)
    by_cases hnamed : ∃ e, cx.table.Names scope parent e
    · obtain ⟨e, he⟩ := hnamed
      obtain ⟨least', hexpand⟩ := h parent List.mem_cons_self e he
      refine ⟨max least least', fun depth hdepth path shape log => ?_⟩
      obtain ⟨found, log₁, hfound, hseen⟩ := hexpand depth (by omega) path scope parent.span log
      obtain ⟨shape', log', hends, hnames⟩ := hrest depth (by omega) path (shape.extend found) log₁
      refine ⟨shape', log', ?_, fun property => ?_⟩
      · rw [Decode.inherited_named he, Ends.bind_iff]
        exact ⟨some found, log₁, hfound, hends⟩
      · have hparent : (∃ f, cx.table.Names scope parent f ∧ cx.table.Seen f property) ↔ cx.table.Seen e property :=
          ⟨fun ⟨f, hf, hs⟩ => he.unique hf ▸ hs, fun hs => ⟨e, he, hs⟩⟩
        rw [hnames, Shape.extend, Entries.mem_names_extend, hseen, or_assoc, List.exists_mem_cons_iff, hparent]
    · refine ⟨least, fun depth hdepth path shape log => ?_⟩
      obtain ⟨shape', log', hends, hnames⟩ := hrest depth hdepth path shape log
      refine ⟨shape', log', ?_, fun property => ?_⟩
      · rwa [Decode.inherited_unnamed (not_exists.mp hnamed)]
      · have hparent : ¬∃ f, cx.table.Names scope parent f ∧ cx.table.Seen f property :=
          fun ⟨f, hf, _⟩ => hnamed ⟨f, hf⟩
        rw [hnames, List.exists_mem_cons_iff, or_iff_right hparent]

/-- A regular interface is expanded, whatever interfaces that extend it have been entered. -/
theorem Regular.expands (hp : cx.options.nonExported ≠ .inline) (hspares : cx.table.SparesOperators)
    (hget : cx.table.get? d.name = some d) (h : cx.Regular d) (hnew : d.name ∉ entered)
    (hentered : ∀ name ∈ entered, ∀ e, cx.table.get? name = some e → Relation.ReflTransGen cx.table.Extends e d) :
    cx.Expands entered d := by
  have hacc := h.acc hp hspares (Table.name_of_get? hget).2
  -- what has been entered grows along the heritage, and never comes round to what is expanded
  induction hacc generalizing entered with
  | intro d hbelow ih =>
    have hd := (Table.name_of_get? hget).2
    have hcycle := Table.not_transGen_of_acc (h.acc hp hspares hd)
    have hextended : ∀ e, cx.table.Extends d e → cx.Regular e := fun e he => h.extended hp hspares hd he
    cases h with
    | intro hbody hgeneric htop hentries =>
    rename_i i
    -- What has been entered inside leads to the interface itself too.
    have hinside : ∀ name ∈ d.name :: entered, ∀ e, cx.table.get? name = some e →
        Relation.ReflTransGen cx.table.Extends e d := by
      intro name hm e he
      rcases List.mem_cons.mp hm with rfl | hm
      · cases hget.symm.trans he
        exact .refl
      · exact hentered name hm e he
    have hparents : ∀ parent ∈ i.heritage, ∀ e, cx.table.Names d.scope parent e → cx.Expands (d.name :: entered) e := by
      intro parent hparent e he
      have hextends : cx.table.Extends d e := ⟨hbody, hgeneric, hparent, he⟩
      refine ih e hextends he.get? (hextended e hextends) ?_ fun name hm f hf => (hinside name hm f hf).tail hextends
      intro hin
      exact hcycle (Relation.TransGen.head' hextends (hinside e.name hin e he.get?))
    obtain ⟨least, hbase⟩ := inherited_ends d.scope i.heritage hparents
    obtain ⟨least', path', log', own, log'', hown⟩ :=
      (ownDecoded_top hbody hgeneric htop).enterAll hp hbody hgeneric hinside
    refine ⟨max least least' + 1, fun depth hdepth path scope span log => ?_⟩
    obtain ⟨depth, rfl⟩ : ∃ n, depth = n + 1 := ⟨depth - 1, by omega⟩
    obtain ⟨base, log₁, hbase, hnames⟩ := hbase depth (by omega) path {} log
    obtain ⟨log₂, hown'⟩ := Beyond.members_follow hp (show least' ≤ depth by omega) .refl hown log₁
    refine ⟨base.extend own, log₂, ?_, fun property => ?_⟩
    · exact (Beyond.expand_interface_iff hbody hgeneric).mpr ⟨hnew, base, log₁, own, hbase, hown', rfl⟩
    · rw [Table.seen_iff hbody hgeneric, Shape.extend, Entries.mem_names_extend, hnames,
        Decode.mem_names_members hown]
      simp [Interface.propertyNames, Entries.names]

/-- What is seen in a regular interface is what it is decoded with, or less. -/
theorem Regular.has_of_seen (hp : cx.options.nonExported ≠ .inline) (hspares : cx.table.SparesOperators)
    (hd : d ∈ cx.table.declarations) (h : cx.Regular d) {name : String} (hseen : cx.table.Seen d name) :
    cx.Has d name := by
  induction hseen with
  | own hbody hname => exact .own hbody hname
  | inherited hextends _ ih =>
    have he := h.extended hp hspares hd hextends
    obtain ⟨hbody, -, hparent, hnames⟩ := hextends
    cases h with
    | intro hbody' _ _ hentries =>
      cases DeclarationBody.interface.inj (hbody.symm.trans hbody')
      obtain ⟨node, hentry, hnode, -⟩ := (hentries _ hparent).named hp hspares hd hnames
      exact .ref hbody hparent hentry hnode hnames.get? (ih (Table.name_of_get? hnames.get?).2 he)

/-- A plain name in the heritage is decoded to a reference to what it names. -/
theorem Entry.of_plain (hp : cx.options.nonExported ≠ .inline) {parent : TypeExpr} {node : Node} {name : String}
    (h : cx.Entry d parent node) (hkind : parent.kind = .reference name false []) :
    node.shape? = none ∧
      ∀ e, node.kind = .ref e.name → cx.table.get? e.name = some e → cx.table.Names d.scope parent e := by
  obtain ⟨kind, doc, span⟩ := parent
  simp only at hkind
  subst hkind
  obtain ⟨log, log', hends⟩ := h
  have hp' : (cx.moved [d.name] d.scope []).options.nonExported ≠ .inline := hp
  rcases Decode.reference_ends hp' hends with ⟨element, hnode⟩ | ⟨_, _, hargs⟩ | ⟨f, hf, hnode⟩ | ⟨hnone, hnode⟩
  · exact ⟨by simp [Node.shape?, hnode], fun e he _ => by simp [hnode] at he⟩
  · exact absurd rfl hargs
  · refine ⟨by simp [Node.shape?, hnode], fun e he hget => ⟨name, false, [], rfl, ?_⟩⟩
    rw [← Kind.ref.inj (hnode.symm.trans he)] at hget
    cases (Table.get?_of_resolve? hf).symm.trans hget
    exact hf
  · refine ⟨by simp [Node.shape?, hnode], fun e he hget => ?_⟩
    rw [← Kind.ref.inj (hnode.symm.trans he)] at hget
    cases (Table.get?_of_resolve?_eq_none hnone).symm.trans hget

/-- Where only plain names stand in the heritage, all that an interface is decoded with is seen in it. -/
theorem Regular.seen_of_has (hp : cx.options.nonExported ≠ .inline) (hspares : cx.table.SparesOperators)
    (hd : d ∈ cx.table.declarations) (h : cx.Regular d)
    (hplain : ∀ e i, Relation.ReflTransGen cx.table.Extends d e → e.body = .interface i → ∀ parent ∈ i.heritage,
      ∃ name, parent.kind = .reference name false []) {name : String} (hhas : cx.Has d name) :
    cx.table.Seen d name := by
  induction hhas with
  | own hbody hname => exact .own hbody hname
  | object hbody hparent hentry hshape _ =>
    obtain ⟨name, hkind⟩ := hplain _ _ .refl hbody _ hparent
    rw [(hentry.of_plain hp hkind).1] at hshape
    cases hshape
  | ref hbody hparent hentry hnode hget _ ih =>
    rename_i d e _ _ _ _ _
    obtain ⟨name, hkind⟩ := hplain _ _ .refl hbody _ hparent
    have hextends : cx.table.Extends d e := by
      cases h with
      | intro hbody' hgeneric _ _ =>
        cases DeclarationBody.interface.inj (hbody.symm.trans hbody')
        exact ⟨hbody, hgeneric, hparent, (hentry.of_plain hp hkind).2 e hnode hget⟩
    refine .inherited hextends (ih (Table.name_of_get? hget).2 (h.extended hp hspares hd hextends) ?_)
    exact fun f j hf => hplain f j (.head hextends hf)

end Context

/-- An interface on which an operator stands is expanded with the depth that there is. -/
theorem Context.Expands.within {cx : Context} {d : Declaration} (hd : d ∈ cx.table.declarations)
    (hentered : cx.entered = []) (h : cx.Expands [] d) (span : Option Span) (log : Log) : ∃ shape log',
      Ends ((Beyond.within cx.table.declarations.length).expand cx d span) log (some shape) log' ∧
        ∀ property, property ∈ shape.properties.names ↔ cx.table.Seen d property := by
  obtain ⟨least, h⟩ := h
  obtain ⟨shape, log', hends, hnames⟩ :=
    h (max least cx.table.declarations.length) (by omega) cx.path cx.scope span log
  refine ⟨shape, log', ?_, hnames⟩
  have hcx : cx.moved cx.path cx.scope [] = cx := by rw [← hentered]; rfl
  have hsame : ∀ depth ≥ cx.table.declarations.length, (Beyond.within depth).expand cx d span =
      (Beyond.watched (.within 0) cx.table.declarations.length).expand cx d span := by
    intro depth hdepth
    have hnone : cx.table.Entered cx.entered := hentered ▸ cx.table.entered_nil
    exact (Beyond.watched_sameFrom _ depth hnone (by omega) (by omega)).expand d hd span false true
  rw [hsame _ (Nat.le_refl _), ← hsame (max least cx.table.declarations.length) (by omega), ← hcx]
  exact hends

/-- `Partial` of an interface, where nothing is inlined and nothing has been entered. If the interface has no type
parameters and is decoded, if its heritage is decoded to objects and to references to such interfaces, and if no
declaration bears the name of an operator, then the operator is evaluated. What it finds are the properties of the
interface itself and, through the plain names in its heritage, of what it extends; other entries of the heritage add
nothing. This is part of what the interface is decoded with, and all of it if only plain names stand in the heritage. -/
theorem Decode.type_partial {cx : Context} (hp : cx.options.nonExported ≠ .inline) (hspares : cx.table.SparesOperators)
    (hentered : cx.entered = []) {d : Declaration} (hget : cx.table.get? d.name = some d) (h : cx.Regular d)
    (outer : Path) {subject : TypeExpr} {node : Node} {log log₁ : Log}
    (hsubject : Ends (Decode.type (.within cx.table.declarations.length) cx (.other :: outer) subject) log
      (some node) log₁)
    (hnode : node.kind = .ref d.name) (doc : Option String) (span : Option Span) :
    (∃ result shape log₂,
      Ends (Decode.type (.within cx.table.declarations.length) cx outer
        ⟨.reference "Partial" false [subject], doc, span⟩) log (some result) log₂ ∧
      result.shape? = some shape ∧ ∀ property, property ∈ shape.properties.names ↔ cx.table.Seen d property) ∧
    (∀ property, cx.table.Seen d property → cx.Has d property) ∧
    ((∀ e i, Relation.ReflTransGen cx.table.Extends d e → e.body = .interface i → ∀ parent ∈ i.heritage,
        ∃ name, parent.kind = .reference name false []) →
      ∀ property, cx.Has d property → cx.table.Seen d property) := by
  have hd := (Table.name_of_get? hget).2
  refine ⟨?_, fun property => h.has_of_seen hp hspares hd, fun hplain property => h.seen_of_has hp hspares hd hplain⟩
  have hexpands : cx.Expands [] d := h.expands hp hspares hget (by simp) (by simp)
  obtain ⟨shape, log₂, hends, hnames⟩ := hexpands.within hd hentered subject.span log₁
  have hresult := around_ends outer { use := .loosen, doc, span } hsubject (.ref hnode hget hends)
  refine ⟨_, _, log₂, hresult, rfl, fun property => ?_⟩
  rw [← hnames]
  simp [OperatorUse.op, Operator.apply, Entries.names, Function.comp_def]

/-- An interface that extends another by name, which in turn extends a part of a third: what that part holds is lost. -/
theorem Decode.type_partial_lid :
    let property (name : String) : Member := .property name false (some (.keyword .string)) none none
    let box : Interface := { name := "Box", members := [property "width", property "depth"] }
    let picked : TypeExpr := .of (.reference "Pick" false [.reference "Box", .literal (.string "width")])
    let tray : Interface := { name := "Tray", heritage := [picked], members := [property "rim"] }
    let lid : Interface := { name := "Lid", heritage := [.reference "Tray"], members := [property "knob"] }
    let table : Table := ⟨.ignore, [⟨"Box", [], true, .interface box⟩, ⟨"Tray", [], true, .interface tray⟩,
      ⟨"Lid", [], true, .interface lid⟩]⟩
    let cx : Context := { source := [], options := {}, table, path := ["Loose"] }
    ∃ result shape log, Ends (Decode.type (.within 3) cx [.declaration "Loose"]
        (.of (.reference "Partial" false [.reference "Lid"]))) {} (some result) log ∧ result.shape? = some shape ∧
      "knob" ∈ shape.properties.names ∧ "rim" ∈ shape.properties.names ∧ "width" ∉ shape.properties.names ∧
      cx.Has ⟨"Lid", [], true, .interface lid⟩ "width" := by
  intro property box picked tray lid table cx
  let boxed : Declaration := ⟨"Box", [], true, .interface box⟩
  let trayed : Declaration := ⟨"Tray", [], true, .interface tray⟩
  let lidded : Declaration := ⟨"Lid", [], true, .interface lid⟩
  have hspares : table.SparesOperators := by
    intro d _ op
    cases op <;> rfl
  have hbox : cx.table.Names [] (.reference "Tray") trayed := ⟨"Tray", false, [], rfl, rfl⟩
  have hunseen : ¬cx.table.Seen lidded "width" := by
    rw [Table.seen_iff rfl rfl]
    rintro (⟨parent, hparent, e, he, hseen⟩ | hown)
    · cases List.mem_singleton.mp hparent
      cases hbox.unique he
      rw [Table.seen_iff rfl rfl] at hseen
      rcases hseen with ⟨parent, hparent, e, ⟨name, qualified, args, hkind, hresolve⟩, -⟩ | hown
      · cases List.mem_singleton.mp hparent
        cases hkind
        cases (hspares boxed (by simp [table, boxed]) .pick).symm.trans hresolve
      · exact absurd hown (by decide)
    · exact absurd hown (by decide)
  obtain ⟨node, shape, hpicked, hshape, hwidth⟩ : ∃ node shape, cx.Entry trayed picked node ∧
      node.shape? = some shape ∧ "width" ∈ shape.properties.names :=
    ⟨_, _, ⟨{}, {}, by unfold cx table box picked property; rfl⟩, rfl, by decide⟩
  obtain ⟨node', htray, hnode'⟩ : ∃ node, cx.Entry lidded (.reference "Tray") node ∧ node.kind = .ref trayed.name :=
    ⟨_, ⟨{}, {}, by unfold cx table; rfl⟩, rfl⟩
  have htop : (∃ log node log', Ends (cx.decodeTop trayed) log (some node) log') ∧
      ∃ log node log', Ends (cx.decodeTop lidded) log (some node) log' :=
    ⟨⟨{}, _, {}, by unfold cx table trayed tray box picked property; rfl⟩,
      ⟨{}, _, {}, by unfold cx table lidded lid property; rfl⟩⟩
  have htrayed : cx.Regular trayed :=
    .intro rfl rfl htop.1 fun parent hparent => List.mem_singleton.mp hparent ▸ .object hpicked hshape
  have hlidded : cx.Regular lidded :=
    .intro rfl rfl htop.2 fun parent hparent => List.mem_singleton.mp hparent ▸ .ref htray hnode' rfl htrayed
  have hhas : cx.Has lidded "width" :=
    .ref rfl (List.mem_singleton.mpr rfl) htray hnode' rfl
      (.object rfl (List.mem_singleton.mpr rfl) hpicked hshape hwidth)
  have hp : cx.options.nonExported ≠ .inline := by decide
  have hsubject : Ends (Decode.type (.within 3) cx [.other, .declaration "Loose"] (.reference "Lid")) {}
      (some (.of (.ref "Lid"))) {} := by rfl
  obtain ⟨⟨result, shape, log, hends, hresult, hnames⟩, -, -⟩ :=
    type_partial hp hspares rfl (show cx.table.get? lidded.name = some lidded from rfl) hlidded [.declaration "Loose"]
      hsubject rfl none none
  refine ⟨result, shape, log, hends, hresult, (hnames _).mpr (.own rfl (by decide)), ?_, ?_, hhas⟩
  · exact (hnames _).mpr (.inherited ⟨rfl, rfl, List.mem_singleton.mpr rfl, hbox⟩ (.own rfl (by decide)))
  · exact fun h => hunseen ((hnames _).mp h)

end TypeSchema
