import TypeSchema.Proofs.References

namespace TypeSchema

mutual

/-- A type that lists keys: a string literal, or a union of types that list keys, each in parentheses or not. -/
inductive ListsKeys : TypeExpr → List String → Prop
  | literal (key : String) (doc : Option String) (span : Option Span) :
      ListsKeys ⟨.literal (.string key), doc, span⟩ [key]
  | union {members : List TypeExpr} {keys : List String} (doc : Option String) (span : Option Span) :
      ListsAllKeys members keys → ListsKeys ⟨.union members, doc, span⟩ keys
  | parenthesized {inner : TypeExpr} {keys : List String} (doc : Option String) (span : Option Span) :
      ListsKeys inner keys → ListsKeys ⟨.parenthesized inner, doc, span⟩ keys

inductive ListsAllKeys : List TypeExpr → List String → Prop
  | nil : ListsAllKeys [] []
  | cons {t : TypeExpr} {rest : List TypeExpr} {keys more : List String} :
      ListsKeys t keys → ListsAllKeys rest more → ListsAllKeys (t :: rest) (keys ++ more)

end

mutual

theorem ListsKeys.stringKeys? {t : TypeExpr} {keys : List String} (h : ListsKeys t keys) :
    TypeSchema.stringKeys? t = some keys := by
  match h with
  | .literal key doc span => rfl
  | .union doc span h => exact h.stringKeysOf?
  | .parenthesized doc span h => exact h.stringKeys?

theorem ListsAllKeys.stringKeysOf? {ts : List TypeExpr} {keys : List String} (h : ListsAllKeys ts keys) :
    TypeSchema.stringKeysOf? ts = some keys := by
  match h with
  | .nil => rfl
  | .cons h hrest =>
    rw [TypeSchema.stringKeysOf?, h.stringKeys?, hrest.stringKeysOf?]
    rfl

end

/-- A type that lists keys, with the keys that it lists. -/
structure KeyType where
  type : TypeExpr
  keys : List String
  lists : ListsKeys type keys

/-- An operator with its keys. -/
inductive OperatorUse
  | pick (keys : KeyType)
  | drop (keys : KeyType)
  | loosen

namespace OperatorUse

def op : OperatorUse → Operator
  | pick _ => .pick
  | drop _ => .drop
  | loosen => .loosen

/-- The arguments after the subject. -/
def args : OperatorUse → List TypeExpr
  | pick keys | drop keys => [keys.type]
  | loosen => []

def keys : OperatorUse → List String
  | pick keys | drop keys => keys.keys
  | loosen => []

/-- Is a property of this name left? -/
def keeps : OperatorUse → String → Bool
  | pick keys, name => keys.keys.contains name
  | drop keys, name => !keys.keys.contains name
  | loosen, _ => true

def picks : OperatorUse → Bool
  | pick _ => true
  | _ => false

def loosens : OperatorUse → Bool
  | loosen => true
  | _ => false

theorem length_args (u : OperatorUse) : u.args.length + 1 = u.op.arity := by
  cases u <;> rfl

end OperatorUse

/-- An operator as it stands around a type. -/
structure Wrapper where
  use : OperatorUse
  doc : Option String := none
  span : Option Span := none

/-- The operator on a type. -/
def Wrapper.around (w : Wrapper) (subject : TypeExpr) : TypeExpr :=
  ⟨.reference w.use.op.name false (subject :: w.use.args), w.doc, w.span⟩

/-- Operators around a type, the outermost first. -/
def nest (wrappers : List Wrapper) (subject : TypeExpr) : TypeExpr := wrappers.foldr Wrapper.around subject

/-- What operators leave of a shape: the properties that all of them keep, in order, none of them required if one
loosens, and nothing else if one picks. -/
def Shape.left (shape : Shape) (uses : List OperatorUse) : Shape where
  properties := (shape.properties.filter fun p => uses.all fun u => u.keeps p.1).map fun p =>
    (p.1, { p.2 with required := p.2.required && !uses.any OperatorUse.loosens })
  additional := if uses.any OperatorUse.picks then .allowed false else shape.additional

namespace Shape

/-- Properties of which none is loosened are the same properties. -/
theorem map_not_loosened (properties : Entries Property) :
    properties.map (fun p => (p.1, { p.2 with required := p.2.required && !false })) = properties := by
  induction properties with
  | nil => rfl
  | cons p rest ih =>
    obtain ⟨name, node, required⟩ := p
    rw [List.map_cons, ih, Bool.not_false, Bool.and_true]

theorem left_nil (shape : Shape) : shape.left [] = shape := by
  simp only [left, List.all_nil, List.filter_true, List.any_nil, map_not_loosened, Bool.false_eq_true, if_false]

/-- One more operator around the others. -/
theorem apply_left (shape : Shape) (u : OperatorUse) (uses : List OperatorUse) :
    u.op.apply u.keys (shape.left uses) = shape.left (u :: uses) := by
  have hfilter : ∀ kept : String → Bool,
      (shape.left uses).properties.filter (fun p => kept p.1) =
        (shape.properties.filter fun p => kept p.1 && uses.all fun u => u.keeps p.1).map fun p =>
          (p.1, { p.2 with required := p.2.required && !uses.any OperatorUse.loosens }) := by
    intro kept
    rw [left, List.filter_map, List.filter_filter]
    rfl
  cases u with
  | pick keys =>
    simp only [Operator.apply, OperatorUse.op, OperatorUse.keys, hfilter keys.keys.contains]
    simp [left, OperatorUse.keeps, OperatorUse.loosens, OperatorUse.picks]
  | drop keys =>
    simp only [Operator.apply, OperatorUse.op, OperatorUse.keys, hfilter fun name => !keys.keys.contains name]
    simp [left, OperatorUse.keeps, OperatorUse.loosens, OperatorUse.picks]
  | loosen =>
    simp [Operator.apply, OperatorUse.op, left, OperatorUse.keeps, OperatorUse.loosens, OperatorUse.picks]

/-- The order of the operators makes no difference. -/
theorem left_perm (shape : Shape) {uses uses' : List OperatorUse} (h : uses.Perm uses') :
    shape.left uses = shape.left uses' := by
  have hall : ∀ kept : OperatorUse → Bool, uses.all kept = uses'.all kept := by
    intro kept
    rw [Bool.eq_iff_iff, List.all_eq_true, List.all_eq_true]
    exact forall_congr' fun u => by rw [h.mem_iff]
  have hany : ∀ is : OperatorUse → Bool, uses.any is = uses'.any is := by
    intro is
    rw [Bool.eq_iff_iff, List.any_eq_true, List.any_eq_true]
    exact exists_congr fun u => by rw [h.mem_iff]
  simp only [left, hall, hany]

/-- Operators of a kind that keep the same names leave the same. -/
theorem left_congr (shape : Shape) {uses uses' : List OperatorUse}
    (hkeeps : ∀ name, uses.all (fun u => u.keeps name) = uses'.all fun u => u.keeps name)
    (hloosens : uses.any OperatorUse.loosens = uses'.any OperatorUse.loosens)
    (hpicks : uses.any OperatorUse.picks = uses'.any OperatorUse.picks) : shape.left uses = shape.left uses' := by
  simp only [left, hkeeps, hloosens, hpicks]

/-- Picked properties are picked out of what is picked below. -/
theorem left_pick_pick (shape : Shape) {keys more both : KeyType}
    (h : ∀ name, name ∈ both.keys ↔ name ∈ keys.keys ∧ name ∈ more.keys) :
    shape.left [.pick keys, .pick more] = shape.left [.pick both] := by
  apply left_congr
  · intro name
    simp [OperatorUse.keeps, h]
  · rfl
  · rfl

theorem left_drop_drop (shape : Shape) {keys more either : KeyType}
    (h : ∀ name, name ∈ either.keys ↔ name ∈ keys.keys ∨ name ∈ more.keys) :
    shape.left [.drop keys, .drop more] = shape.left [.drop either] := by
  apply left_congr
  · intro name
    simp [OperatorUse.keeps, h]
  · rfl
  · rfl

/-- Without an operator that loosens, the properties that are left are left as they are. -/
theorem properties_left (shape : Shape) {uses : List OperatorUse} (h : uses.any OperatorUse.loosens = false) :
    (shape.left uses).properties = shape.properties.filter fun p => uses.all fun u => u.keeps p.1 := by
  simp only [left, h, map_not_loosened]

/-- What is picked and what is dropped by the same keys are all properties, each once. -/
theorem left_pick_drop_perm (shape : Shape) (keys : KeyType) :
    ((shape.left [.pick keys]).properties ++ (shape.left [.drop keys]).properties).Perm shape.properties := by
  rw [shape.properties_left rfl, shape.properties_left rfl]
  simpa [OperatorUse.keeps] using List.filter_append_perm (fun p => keys.keys.contains p.1) shape.properties

theorem left_pick_drop_disjoint (shape : Shape) (keys : KeyType) :
    ∀ p ∈ (shape.left [.pick keys]).properties, ∀ q ∈ (shape.left [.drop keys]).properties, p.1 ≠ q.1 := by
  rw [shape.properties_left rfl, shape.properties_left rfl]
  intro p hp q hq heq
  have hpicked : keys.keys.contains p.1 := by simpa [OperatorUse.keeps] using (List.mem_filter.mp hp).2
  have hdropped : keys.keys.contains q.1 = false := by simpa [OperatorUse.keeps] using (List.mem_filter.mp hq).2
  rw [heq, hdropped] at hpicked
  exact Bool.noConfusion hpicked

end Shape

namespace Decode

variable {beyond : Beyond} {cx : Context}

/-- The shape of a node, going on from one log to another: its own, or that of the declaration it refers to. -/
inductive Shaped (beyond : Beyond) (cx : Context) (span : Option Span) (log : Log) (node : Node) (shape : Shape) :
    Log → Prop
  | object : node.shape? = some shape → Shaped beyond cx span log node shape log
  | ref {name : String} {d : Declaration} {log' : Log} : node.kind = .ref name → cx.table.get? name = some d →
      Ends (beyond.expand cx d span) log (some shape) log' → Shaped beyond cx span log node shape log'

variable {log log₁ log₂ : Log} {node : Node} {shape : Shape} {subject : TypeExpr} {subjectSpan : Option Span}

theorem Shaped.subjectShape (h : Shaped beyond cx subjectSpan log node shape log₁) (op : Operator)
    (span : Option Span) : Ends (subjectShape beyond cx op node subjectSpan span) log (some shape) log₁ := by
  cases h with
  | object h =>
    obtain ⟨kind, c, e, a, l⟩ := node
    cases kind <;> cases h
    exact Ends.pure_iff.mpr ⟨rfl, rfl⟩
  | ref hkind hget hexpand =>
    simp only [Decode.subjectShape, hkind, hget, Ends.bind_iff]
    exact ⟨some shape, log₁, hexpand, Ends.pure_iff.mpr ⟨rfl, rfl⟩⟩

theorem Shaped.operator (h : Shaped beyond cx subjectSpan log node shape log₁) (u : OperatorUse)
    (span : Option Span) :
    Ends (operator beyond cx u.op node subjectSpan u.args.head? span) log
      (some (u.op.apply u.keys shape).node) log₁ := by
  rw [Decode.operator, Ends.bind_iff]
  refine ⟨some shape, log₁, h.subjectShape u.op span, ?_⟩
  cases u with
  | pick keys | drop keys =>
    simp only [OperatorUse.args, List.head?_cons, keys.lists.stringKeys?]
    exact Ends.pure_iff.mpr ⟨rfl, rfl⟩
  | loosen => exact Ends.pure_iff.mpr ⟨rfl, rfl⟩

/-- One operator: its subject is decoded, and it is applied to the shape of that. -/
theorem around_ends (outer : Path) (w : Wrapper)
    (hs : Ends (Decode.type beyond cx (.other :: outer) subject) log (some node) log₁)
    (hshape : Shaped beyond cx subject.span log₁ node shape log₂) :
    Ends (Decode.type beyond cx outer (w.around subject)) log
      (some ((w.use.op.apply w.use.keys shape).node.layer (DocComment.read w.doc (.other :: outer)))) log₂ := by
  have hname : ¬(w.use.op.name = "Array" ∧ (subject :: w.use.args).length ≤ 1) := by
    intro h
    cases hop : w.use.op <;> rw [hop] at h <;> exact absurd h.1 (by decide)
  have harity : (subject :: w.use.args).length = w.use.op.arity := w.use.length_args
  simp only [Wrapper.around, Decode.type]
  rw [if_neg hname]
  simp only [Operator.ofName?_name, harity, ne_eq, not_true_eq_false, if_false, Ends.bind_iff]
  refine ⟨some node, log₁, hs, ?_⟩
  simp only [Ends.bind_iff]
  exact ⟨_, log₂, hshape.operator w.use w.span, Ends.pure_iff.mpr ⟨rfl, rfl⟩⟩

/-- A nest of operators: all of them are applied to the shape of the subject. -/
theorem nest_ends (top : Wrapper) (rest : List Wrapper) (outer : Path)
    (hs : Ends (Decode.type beyond cx (List.replicate (rest.length + 1) .other ++ outer) subject) log (some node) log₁)
    (hshape : Shaped beyond cx subject.span log₁ node shape log₂) :
    Ends (Decode.type beyond cx outer (nest (top :: rest) subject)) log
      (some ((shape.left ((top :: rest).map Wrapper.use)).node.layer (DocComment.read top.doc (.other :: outer))))
      log₂ := by
  induction rest generalizing top outer with
  | nil =>
    rw [List.map_cons, List.map_nil, ← shape.apply_left, shape.left_nil]
    exact around_ends outer top hs hshape
  | cons next rest ih =>
    have hpath : List.replicate ((next :: rest).length + 1) .other ++ outer =
        List.replicate (rest.length + 1) .other ++ (.other :: outer) := by
      rw [List.length_cons, List.replicate_succ', List.append_assoc]
      rfl
    rw [hpath] at hs
    rw [List.map_cons, ← shape.apply_left]
    exact around_ends outer top (ih next (.other :: outer) hs) (.object rfl)

/-- Nested operators, in any context and whatever they stand in. If the subject is decoded to an object, or to a
reference to a declaration that is expanded, then the nest is decoded to a plain object. It has the properties of the
subject, in order, that every operator keeps; they are required as they were unless an operator loosens; and what else
is allowed is what the subject allows unless an operator picks. So neither the order of the operators nor the way in
which keys are spread over them matters, and what is picked and what is left out by the same keys are all properties. -/
theorem type_nest (outer : Path) (top : Wrapper) (rest : List Wrapper)
    (hs : Ends (Decode.type beyond cx (List.replicate (rest.length + 1) .other ++ outer) subject) log (some node) log₁)
    (hshape : Shaped beyond cx subject.span log₁ node shape log₂) :
    let uses := (top :: rest).map Wrapper.use
    Ends (Decode.type beyond cx outer (nest (top :: rest) subject)) log
      (some ((Node.of (.object
        ((shape.properties.filter fun p => uses.all fun u => u.keeps p.1).map fun p =>
          (p.1, { p.2 with required := p.2.required && !uses.any OperatorUse.loosens }))
        (if uses.any OperatorUse.picks then .allowed false else shape.additional))).layer
          (DocComment.read top.doc (.other :: outer)))) log₂ ∧
    (∀ uses', uses.Perm uses' → shape.left uses = shape.left uses') ∧
    (∀ keys more both : KeyType, (∀ name, name ∈ both.keys ↔ name ∈ keys.keys ∧ name ∈ more.keys) →
      shape.left [.pick keys, .pick more] = shape.left [.pick both]) ∧
    (∀ keys more either : KeyType, (∀ name, name ∈ either.keys ↔ name ∈ keys.keys ∨ name ∈ more.keys) →
      shape.left [.drop keys, .drop more] = shape.left [.drop either]) ∧
    ∀ keys : KeyType,
      ((shape.left [.pick keys]).properties ++ (shape.left [.drop keys]).properties).Perm shape.properties ∧
      ∀ p ∈ (shape.left [.pick keys]).properties, ∀ q ∈ (shape.left [.drop keys]).properties, p.1 ≠ q.1 := by
  intro uses
  refine ⟨nest_ends top rest outer hs hshape, fun uses' h => shape.left_perm h, ?_, ?_, ?_⟩
  · intro keys more both h
    exact shape.left_pick_pick h
  · intro keys more either h
    exact shape.left_drop_drop h
  · intro keys
    exact ⟨shape.left_pick_drop_perm keys, shape.left_pick_drop_disjoint keys⟩

/-- Three operators on an interface that is referred to, with keys in parentheses and one that is absent. -/
theorem type_nest_shelf :
    let base : Declaration := ⟨"Shelf", [], true, .interface {
      name := "Shelf", exported := true,
      members := [.property "width" false (some (.keyword .number)) none none,
        .property "depth" false (some (.keyword .number)) none none,
        .property "label" false (some (.keyword .string)) none none] }⟩
    let cx : Context := { source := [], options := {}, table := ⟨.ignore, [base]⟩ }
    let keys : TypeExpr := .of (.union [.literal (.string "depth"), .of (.parenthesized (.literal (.string "width")))])
    let t : TypeExpr := .of (.reference "Pick" false
      [.of (.reference "Partial" false
        [.of (.reference "Omit" false [.reference "Shelf", .literal (.string "width")])]), keys])
    let depth : Node := { kind := .number, annotations := { title := some "Shelf.depth" } }
    Ends (Decode.type (.within 1) cx [] t) {}
      (some ((Node.of (.object [("depth", ⟨depth, false⟩)] (.allowed false))).layer {})) {} := by
  intro base cx keys t depth
  have hkeys : ListsKeys keys ["depth", "width"] :=
    .union none none (.cons (.literal _ _ _) (.cons (.parenthesized _ _ (.literal _ _ _)) .nil))
  let picked : Wrapper := { use := .pick ⟨keys, _, hkeys⟩ }
  let dropped : Wrapper := { use := .drop ⟨.literal (.string "width"), _, .literal "width" none none⟩ }
  let titled (kind : Kind) (title : String) : Node := { kind, annotations := { title := some title } }
  have hsubject : Ends (Decode.type (.within 1) cx [.other, .other, .other] (.reference "Shelf")) {}
      (some (.of (.ref "Shelf"))) {} := by rfl
  have hexpand : Ends ((Beyond.within 1).expand cx base none) {}
      (some ⟨[("width", ⟨titled .number "Shelf.width", true⟩), ("depth", ⟨titled .number "Shelf.depth", true⟩),
        ("label", ⟨titled .string "Shelf.label", true⟩)], .allowed false⟩) {} := by
    unfold cx base titled
    rfl
  exact (type_nest [] picked [{ use := .loosen }, dropped] hsubject (.ref rfl rfl hexpand)).1

end Decode

end TypeSchema
