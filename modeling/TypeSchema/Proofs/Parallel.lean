import TypeSchema.Decode
import TypeSchema.Proofs.Tables

namespace TypeSchema

/-- A property of runs side by side, one for each index. -/
structure Parallel (ι : Type) where
  Holds : ∀ {α : Type}, (ι → Decode α) → Prop
  pure : ∀ {α : Type} (a : α), Holds fun _ => Pure.pure a
  bind : ∀ {α β : Type} {m : ι → Decode α} {f : ι → α → Decode β}, Holds m → (∀ a, Holds fun i => f i a) →
    Holds fun i => m i >>= f i

/-- Runs are the same. -/
def Parallel.same (ι : Type) : Parallel ι where
  Holds m := ∀ i j, m i = m j
  pure _ _ _ := rfl
  bind {_ _ m f} hm hf i j := by
    have hf' : f i = f j := funext fun a => hf a i j
    change m i >>= f i = m j >>= f j
    rw [hm i j, hf']

namespace Decode

variable {ι : Type}

/-- It holds of every step that asks the context. -/
structure Steps (P : Parallel ι) (beyond : ι → Beyond) (cx : ι → Context) : Prop where
  unsupported : ∀ {α : Type} (cause : Unsupported) (span : Option Span),
    P.Holds fun i => ((cx i).unsupported cause span : Decode (Option α))
  warn : ∀ span : Option Span, P.Holds fun i => (cx i).warn .nonStringIndex span
  resolve : ∀ (name : String) (span : Option Span), P.Holds fun i => Decode.resolve (beyond i) (cx i) name span
  expand : ∀ (name : String) (span : Option Span), P.Holds fun i =>
    ((cx i).table.get? name).elim (Pure.pure none) fun d => (beyond i).expand (cx i) d span
  inherit : ∀ (name : String) (span : Option Span), P.Holds fun i =>
    ((cx i).table.resolve? (cx i).scope name).elim (Pure.pure none) fun d => (beyond i).expand (cx i) d span

variable {P : Parallel ι} {beyond : ι → Beyond} {cx : ι → Context}

theorem subjectShape_holds (h : Steps P beyond cx) (op : Operator) (subject : Node) (subjectSpan span : Option Span) :
    P.Holds fun i => subjectShape (beyond i) (cx i) op subject subjectSpan span := by
  obtain ⟨kind, c, e, a, l⟩ := subject
  cases kind with
  | object => exact P.pure _
  | ref name =>
    have heq : (fun i => subjectShape (beyond i) (cx i) op ⟨.ref name, c, e, a, l⟩ subjectSpan span) =
        fun i => (((cx i).table.get? name).elim (Pure.pure none) fun d => (beyond i).expand (cx i) d subjectSpan) >>=
          fun shape =>
            shape.elim ((cx i).unsupported (.operatorOfUnknown op name) span) fun shape => Pure.pure (some shape) := by
      funext i
      simp only [subjectShape]
      cases (cx i).table.get? name with
      | none => rfl
      | some d =>
        refine bind_congr fun shape => ?_
        cases shape <;> rfl
    rw [heq]
    refine P.bind (h.expand name subjectSpan) fun shape => ?_
    cases shape with
    | none => exact h.unsupported _ _
    | some shape => exact P.pure _
  | _ => exact h.unsupported _ _

theorem operator_holds (h : Steps P beyond cx) (op : Operator) (subject : Node) (subjectSpan : Option Span)
    (keys : Option TypeExpr) (span : Option Span) :
    P.Holds fun i => operator (beyond i) (cx i) op subject subjectSpan keys span := by
  refine P.bind (subjectShape_holds h op subject subjectSpan span) fun shape => ?_
  cases shape with
  | none => exact P.pure _
  | some shape =>
    cases keys with
    | none => exact P.pure _
    | some keys =>
      dsimp only
      split
      · exact P.pure _
      · exact h.unsupported _ _

mutual

theorem type_holds (h : Steps P beyond cx) (outer : Path) (t : TypeExpr) :
    P.Holds fun i => Decode.type (beyond i) (cx i) outer t := by
  match t with
  | ⟨.union all, doc, span⟩ | ⟨.intersection all, doc, span⟩ =>
    simp only [Decode.type]
    exact P.bind (types_holds h _ all) fun nodes => P.pure _
  | ⟨.parenthesized inner, doc, span⟩ =>
    simp only [Decode.type]
    exact P.bind (type_holds h _ inner) fun node => P.pure _
  | ⟨.keyword k, doc, span⟩ =>
    cases k <;> simp only [Decode.type] <;> first | exact P.pure _ | exact h.unsupported _ _
  | ⟨.literal l, doc, span⟩ =>
    cases l <;> simp only [Decode.type] <;> first | exact P.pure _ | exact h.unsupported _ _
  | ⟨.array element, doc, span⟩ =>
    simp only [Decode.type]
    exact P.bind (type_holds h _ element) fun node => P.pure _
  | ⟨.reference name true args, doc, span⟩ =>
    simp only [Decode.type]
    exact h.unsupported _ _
  | ⟨.reference name false [], doc, span⟩ =>
    simp only [Decode.type]
    split
    · exact P.pure _
    · split
      · split
        · exact h.unsupported _ _
        · exact P.pure _
      · refine P.bind (h.resolve name span) fun r => ?_
        cases r with
        | ref target => exact P.pure _
        | inlined node => exact P.pure _
  | ⟨.reference name false (subject :: keys), doc, span⟩ =>
    simp only [Decode.type]
    split
    · exact P.bind (type_holds h _ subject) fun node => P.pure _
    · split
      · next op hop =>
        split
        · exact h.unsupported _ _
        · refine P.bind (type_holds h _ subject) fun node => ?_
          cases node with
          | none => exact P.pure _
          | some node => exact P.bind (operator_holds h op node _ _ span) fun result => P.pure _
      · exact h.unsupported _ _
  | ⟨.tuple all, doc, span⟩ =>
    simp only [Decode.type]
    exact P.bind (elements_holds h outer 0 all) fun shape => P.pure _
  | ⟨.object all, doc, span⟩ =>
    simp only [Decode.type]
    exact P.bind (members_holds h _ {} all) fun shape => P.pure _
  | ⟨.unsupported form, doc, span⟩ =>
    simp only [Decode.type]
    exact h.unsupported _ _

theorem types_holds (h : Steps P beyond cx) (path : Path) (ts : List TypeExpr) :
    P.Holds fun i => types (beyond i) (cx i) path ts := by
  match ts with
  | [] => exact P.pure _
  | t :: rest =>
    simp only [types]
    exact P.bind (type_holds h path t) fun node => P.bind (types_holds h path rest) fun nodes => P.pure _

theorem elements_holds (h : Steps P beyond cx) (outer : Path) (n : Nat) (es : List TupleElement) :
    P.Holds fun i => elements (beyond i) (cx i) outer n es := by
  match es with
  | [] => exact P.pure _
  | ⟨.required, t, label⟩ :: rest | ⟨.optional, t, label⟩ :: rest =>
    simp only [elements]
    exact P.bind (type_holds h _ t) fun node => P.bind (elements_holds h outer (n + 1) rest) fun shape => P.pure _
  | [⟨.rest, t, label⟩] =>
    simp only [elements]
    refine P.bind (type_holds h _ t) fun node => ?_
    split
    · exact P.pure _
    · exact P.bind (h.unsupported _ _) fun rest => P.pure _
    · exact P.pure _
  | ⟨.rest, t, label⟩ :: next :: rest =>
    simp only [elements]
    exact P.bind (h.unsupported _ _) fun _ => elements_holds h outer (n + 1) (next :: rest)

theorem members_holds (h : Steps P beyond cx) (path : Path) (shape : Shape) (ms : List Member) :
    P.Holds fun i => members (beyond i) (cx i) path shape ms := by
  match ms with
  | [] => exact P.pure _
  | .property name optional (some t) doc span :: rest =>
    simp only [members]
    exact P.bind (type_holds h _ t) fun node => members_holds h path _ rest
  | .property name optional none doc span :: rest =>
    simp only [members]
    exact members_holds h path shape rest
  | .index param key value doc span :: rest =>
    simp only [members]
    split
    · exact P.bind (type_holds h _ value) fun node => members_holds h path _ rest
    · exact P.bind (h.warn _) fun _ => members_holds h path shape rest
  | .other span :: rest =>
    simp only [members]
    exact members_holds h path shape rest

end

theorem declaration_holds (h : Steps P beyond cx) (d : Declaration) :
    P.Holds fun i => declaration (beyond i) (cx i) d := by
  unfold declaration
  split
  · exact h.unsupported _ _
  · cases d.body with
    | typeAlias a => exact P.bind (type_holds h _ a.value) fun node => P.pure _
    | interface i =>
      exact P.bind (types_holds h _ i.heritage) fun parents => P.bind (members_holds h _ {} i.members) fun own =>
        P.pure _

/-- A parent that is a plain name adds the members of what it names. -/
theorem inherited_reference (beyond : Beyond) (cx : Context) (shape : Shape) (name : String) (qualified : Bool)
    (args : List TypeExpr) (doc : Option String) (span : Option Span) (rest : List TypeExpr) :
    inherited beyond cx shape (⟨.reference name qualified args, doc, span⟩ :: rest) =
      ((cx.table.resolve? cx.scope name).elim (Pure.pure none) fun d => beyond.expand cx d span) >>= fun more =>
        inherited beyond cx (more.elim shape shape.extend) rest := by
  rw [inherited]
  dsimp only
  cases cx.table.resolve? cx.scope name with
  | none => rfl
  | some d =>
    refine bind_congr fun more => ?_
    cases more <;> rfl

theorem inherited_holds (h : Steps P beyond cx) (shape : Shape) (parents : List TypeExpr) :
    P.Holds fun i => inherited (beyond i) (cx i) shape parents := by
  induction parents generalizing shape with
  | nil => exact P.pure _
  | cons parent rest ih =>
    obtain ⟨kind, doc, span⟩ := parent
    cases kind with
    | reference name qualified args =>
      simp only [inherited_reference]
      exact P.bind (h.inherit name span) fun more => ih _
    | _ => exact ih shape

theorem shape_holds (h : Steps P beyond cx) (d : Declaration) : P.Holds fun i => shape (beyond i) (cx i) d := by
  unfold shape
  cases d.body with
  | typeAlias a => exact P.bind (declaration_holds h d) fun node => P.pure _
  | interface i =>
    dsimp only
    split
    · exact P.pure _
    · exact P.bind (inherited_holds h {} i.heritage) fun base => P.bind (members_holds h _ {} i.members) fun own =>
        P.pure _

end Decode

namespace Context

/-- The context with another table. -/
def across (cx : Context) (table : Table) : Context := { cx with table }

variable (cx : Context) (table : Table)

@[simp] theorem across_table : (cx.across table).table = table := rfl

@[simp] theorem across_scope : (cx.across table).scope = cx.scope := rfl

@[simp] theorem across_entered : (cx.across table).entered = cx.entered := rfl

@[simp] theorem across_options : (cx.across table).options = cx.options := rfl

end Context

/-- Steps are the same with tables that find the same, as long as the ways into their declarations are. -/
theorem Decode.Steps.same {ι : Type} {beyond : ι → Beyond} {cx : Context} {table : ι → Table}
    (hget : ∀ i, (table i).get? = cx.table.get?) (hresolve : ∀ i, (table i).resolve? = cx.table.resolve?)
    (hinline : ∀ d ∈ cx.table.declarations, ∀ span, (Parallel.same ι).Holds fun i =>
      (beyond i).inline (cx.across (table i)) d span)
    (hexpand : ∀ d ∈ cx.table.declarations, ∀ span, (Parallel.same ι).Holds fun i =>
      (beyond i).expand (cx.across (table i)) d span) :
    Steps (.same ι) beyond fun i => cx.across (table i) where
  unsupported _ _ _ _ := rfl
  warn _ _ _ := rfl
  resolve name span := by
    simp only [Decode.resolve, Context.across_table, Context.across_scope, Context.across_options, hresolve]
    cases hr : cx.table.resolve? cx.scope name with
    | none => exact fun _ _ => rfl
    | some d =>
      have hd := (Table.name_of_get? (Table.get?_of_resolve? hr)).2
      dsimp only
      split
      · exact fun _ _ => rfl
      · cases cx.options.nonExported with
        | inline => exact Parallel.bind _ (hinline d hd span) fun node _ _ => rfl
        | _ => exact fun _ _ => rfl
  expand name span := by
    simp only [Context.across_table, hget]
    cases hg : cx.table.get? name with
    | none => exact fun _ _ => rfl
    | some d => exact hexpand d (Table.name_of_get? hg).2 span
  inherit name span := by
    simp only [Context.across_table, Context.across_scope, hresolve]
    cases hr : cx.table.resolve? cx.scope name with
    | none => exact fun _ _ => rfl
    | some d => exact hexpand d (Table.name_of_get? (Table.get?_of_resolve? hr)).2 span

end TypeSchema
