import TypeSchema.Proofs.Nodes
import TypeSchema.Proofs.ValueEquality

namespace TypeSchema

def Additional.children : Additional → List Node
  | .allowed _ => []
  | .node inner => [inner]

/-- The nodes directly inside a node of this kind. -/
def Kind.children : Kind → List Node
  | .or members => members
  | .and members => members
  | .array element => [element]
  | .tuple elements additional _ => elements ++ additional.children
  | .object properties additional => properties.map (fun p => p.2.node) ++ additional.children
  | _ => []

theorem Additional.nodes_eq (additional : Additional) :
    additional.nodes = additional.children.flatMap Node.nodes := by
  cases additional <;> simp [nodes, children]

theorem nodesOf_eq (nodes : List Node) : nodesOf nodes = nodes.flatMap Node.nodes := by
  induction nodes with
  | nil => simp [nodesOf]
  | cons node rest ih => simp [nodesOf, ih]

theorem nodesOfProperties_eq (properties : List (String × Property)) :
    nodesOfProperties properties = (properties.map fun p => p.2.node).flatMap Node.nodes := by
  induction properties with
  | nil => simp [nodesOfProperties]
  | cons p rest ih =>
    obtain ⟨name, node, required⟩ := p
    simp [nodesOfProperties, ih]

theorem Kind.nodes_eq (kind : Kind) : kind.nodes = kind.children.flatMap Node.nodes := by
  cases kind <;> simp [nodes, children, nodesOf_eq, nodesOfProperties_eq, Additional.nodes_eq]

theorem Node.mem_nodes_of_child {node child n : Node} (h : child ∈ node.kind.children) (hn : n ∈ child.nodes) :
    n ∈ node.nodes := by
  rw [node.nodes_eq, Kind.nodes_eq]
  exact List.mem_cons_of_mem _ (List.mem_flatMap.mpr ⟨child, h, hn⟩)

/-- What is gathered from the nodes of a tree is that of the node itself, then what is gathered below it. -/
theorem Node.filterMap_nodes {β : Type} (f : Node → Option β) (node : Node) :
    node.nodes.filterMap f = (f node).toList ++ node.kind.children.flatMap fun child => child.nodes.filterMap f := by
  rw [node.nodes_eq, Kind.nodes_eq, List.filterMap_cons, List.filterMap_flatMap]
  cases f node <;> rfl

theorem Additional.sizeOf_child {additional : Additional} {child : Node} (h : child ∈ additional.children) :
    sizeOf child < sizeOf additional := by
  cases additional with
  | allowed flag => cases h
  | node inner =>
    obtain rfl := List.mem_singleton.mp h
    simp

theorem Kind.sizeOf_child {kind : Kind} {child : Node} (h : child ∈ kind.children) : sizeOf child < sizeOf kind := by
  cases kind with
  | or members | and members =>
    have hlt : sizeOf child < sizeOf members := List.sizeOf_lt_of_mem h
    simp only [or.sizeOf_spec, and.sizeOf_spec]
    omega
  | array element =>
    obtain rfl := List.mem_singleton.mp h
    simp
  | tuple elements additional minItems =>
    simp only [tuple.sizeOf_spec]
    rcases List.mem_append.mp h with h | h
    · have := List.sizeOf_lt_of_mem h
      omega
    · have := Additional.sizeOf_child h
      omega
  | object properties additional =>
    simp only [object.sizeOf_spec]
    rcases List.mem_append.mp h with h | h
    · obtain ⟨⟨name, node, required⟩, hp, rfl⟩ := List.mem_map.mp h
      have hlt := List.sizeOf_lt_of_mem hp
      simp only [Prod.mk.sizeOf_spec, Property.mk.sizeOf_spec] at hlt ⊢
      omega
    · have := Additional.sizeOf_child h
      omega
  | _ => cases h

/-- What holds of a node if it holds of the nodes directly inside it holds of every node. -/
@[elab_as_elim]
theorem Node.induction {P : Node → Prop} (step : ∀ node : Node, (∀ child ∈ node.kind.children, P child) → P node)
    (node : Node) : P node :=
  step node fun child _ => induction step child
termination_by sizeOf node
decreasing_by
  have := Kind.sizeOf_child ‹_›
  obtain ⟨kind, constant, enumeration, annotations, loc⟩ := node
  simp only [mk.sizeOf_spec] at this ⊢
  omega

/-- Is this a kind without parts? -/
def Kind.isSimple : Kind → Bool
  | .object _ _ | .array _ | .tuple _ _ _ | .or _ | .and _ => false
  | _ => true

/-- Properties of one name, equal in structure. -/
def PropertyMatches (p q : String × Property) : Prop :=
  (p.1 = q.1 ∧ p.2.required = q.2.required) ∧ p.2.node.structureEq q.2.node

/-- Kinds of one form whose parts are equal in structure. -/
inductive Kind.Matches : Kind → Kind → Prop
  | simple {k : Kind} (h : k.isSimple) : Matches k k
  | object {ps qs : List (String × Property)} {x y : Additional} (hp : List.Forall₂ PropertyMatches ps qs)
      (hx : x.structureEq y) : Matches (.object ps x) (.object qs y)
  | array {a b : Node} (h : a.structureEq b) : Matches (.array a) (.array b)
  | tuple {as bs : List Node} {x y : Additional} {minItems : Nat}
      (h : List.Forall₂ (fun a b => a.structureEq b) as bs) (hx : x.structureEq y) :
      Matches (.tuple as x minItems) (.tuple bs y minItems)
  | or {as bs : List Node} (h : List.Forall₂ (fun a b => a.structureEq b) as bs) : Matches (.or as) (.or bs)
  | and {as bs : List Node} (h : List.Forall₂ (fun a b => a.structureEq b) as bs) : Matches (.and as) (.and bs)

theorem structureEqNodes_iff {as bs : List Node} :
    structureEqNodes as bs ↔ List.Forall₂ (fun a b => a.structureEq b) as bs := by
  induction as generalizing bs with
  | nil => cases bs <;> simp [structureEqNodes]
  | cons a as ih => cases bs <;> simp [structureEqNodes, ih]

theorem structureEqProperties_iff {ps qs : List (String × Property)} :
    structureEqProperties ps qs ↔ List.Forall₂ PropertyMatches ps qs := by
  induction ps generalizing qs with
  | nil => cases qs <;> simp [structureEqProperties]
  | cons p ps ih =>
    obtain ⟨name, node, required⟩ := p
    cases qs with
    | nil => simp [structureEqProperties]
    | cons q qs =>
      obtain ⟨other, otherNode, otherRequired⟩ := q
      simp [structureEqProperties, PropertyMatches, ih]

theorem Kind.structureEq_iff {k l : Kind} : k.structureEq l ↔ k.Matches l := by
  constructor
  · intro h
    cases k <;> cases l <;>
      simp only [structureEq, Bool.and_eq_true, beq_iff_eq, structureEqNodes_iff, structureEqProperties_iff,
        Bool.false_eq_true] at h
    case object.object => exact .object h.1 h.2
    case array.array => exact .array h
    case tuple.tuple =>
      obtain ⟨⟨hnodes, hx⟩, rfl⟩ := h
      exact .tuple hnodes hx
    case or.or => exact .or h
    case and.and => exact .and h
    case ref.ref =>
      subst h
      exact .simple rfl
    all_goals exact .simple rfl
  · intro h
    cases h with
    | simple h => cases k <;> simp_all [structureEq, isSimple]
    | object hp hx => simp [structureEq, structureEqProperties_iff, hp, hx]
    | array h => simp [structureEq, h]
    | tuple h hx => simp [structureEq, structureEqNodes_iff, h, hx]
    | or h => simp [structureEq, structureEqNodes_iff, h]
    | and h => simp [structureEq, structureEqNodes_iff, h]

theorem Additional.structureEq_self {x : Additional} (h : ∀ child ∈ x.children, child.structureEq child) :
    x.structureEq x := by
  cases x with
  | allowed flag => simp [structureEq]
  | node inner => simpa [structureEq] using h inner (List.mem_singleton_self inner)

theorem Additional.structureEq_symm {x y : Additional}
    (h : ∀ child ∈ x.children, ∀ b, child.structureEq b → b.structureEq child) (hxy : x.structureEq y) :
    y.structureEq x := by
  cases x with
  | allowed flag =>
    cases y with
    | allowed other =>
      obtain rfl : flag = other := by simpa [structureEq] using hxy
      simp [structureEq]
    | node b => simpa [structureEq] using hxy
  | node a =>
    cases y with
    | allowed flag => simpa [structureEq] using hxy
    | node b =>
      simp only [structureEq] at hxy ⊢
      exact h a (List.mem_singleton_self a) b hxy

namespace Kind

theorem matches_self {k : Kind} (h : ∀ child ∈ k.children, child.structureEq child) : k.Matches k := by
  cases k with
  | object properties additional =>
    apply Matches.object
    · rw [List.forall₂_same]
      intro p hp
      exact ⟨⟨rfl, rfl⟩, h _ (List.mem_append_left _ (List.mem_map_of_mem hp))⟩
    · exact Additional.structureEq_self fun child hc => h child (List.mem_append_right _ hc)
  | array element => exact .array (h element (List.mem_singleton_self element))
  | tuple elements additional minItems =>
    apply Matches.tuple
    · rw [List.forall₂_same]
      intro a ha
      exact h a (List.mem_append_left _ ha)
    · exact Additional.structureEq_self fun child hc => h child (List.mem_append_right _ hc)
  | or members => exact .or (List.forall₂_same.mpr h)
  | and members => exact .and (List.forall₂_same.mpr h)
  | _ => exact .simple rfl

theorem Matches.symm {k l : Kind} (hkl : k.Matches l)
    (h : ∀ child ∈ k.children, ∀ b, child.structureEq b → b.structureEq child) : l.Matches k := by
  cases hkl with
  | simple hs => exact .simple hs
  | object hp hx =>
    apply Matches.object
    · apply forall₂_symm_of_mem _ hp
      intro p hp q hpq
      exact ⟨⟨hpq.1.1.symm, hpq.1.2.symm⟩, h _ (List.mem_append_left _ (List.mem_map_of_mem hp)) _ hpq.2⟩
    · exact Additional.structureEq_symm (fun child hc => h child (List.mem_append_right _ hc)) hx
  | array hab => exact .array (h _ (List.mem_singleton_self _) _ hab)
  | tuple hnodes hx =>
    apply Matches.tuple
    · exact forall₂_symm_of_mem (fun a ha => h a (List.mem_append_left _ ha)) hnodes
    · exact Additional.structureEq_symm (fun child hc => h child (List.mem_append_right _ hc)) hx
  | or hnodes => exact .or (forall₂_symm_of_mem h hnodes)
  | and hnodes => exact .and (forall₂_symm_of_mem h hnodes)

end Kind

/-- No object in the constant, the enumeration or the default of a node has a name twice. -/
structure Node.ValuesDistinct (node : Node) : Prop where
  constant : ∀ v ∈ node.constant, v.Distinct
  enumeration : ∀ vs ∈ node.enumeration, Json.DistinctItems vs
  default : ∀ v ∈ node.annotations.defaultValue, v.Distinct

theorem Node.valuesDistinct_iff {node : Node} : node.ValuesDistinct ↔ (∀ v ∈ node.constant, v.Distinct) ∧
    (∀ vs ∈ node.enumeration, Json.DistinctItems vs) ∧ ∀ v ∈ node.annotations.defaultValue, v.Distinct :=
  ⟨fun h => ⟨h.constant, h.enumeration, h.default⟩, fun h => ⟨h.1, h.2.1, h.2.2⟩⟩

namespace Node

theorem ValuesDistinct.items {node : Node} (h : node.ValuesDistinct) :
    ∀ v ∈ node.enumeration.map Json.array, v.Distinct := by
  intro v hv
  obtain ⟨vs, hvs, rfl⟩ := Option.map_eq_some_iff.mp hv
  exact h.enumeration vs hvs

theorem matches_iff {a b : Node} : a.structureEq b ↔ a.kind.Matches b.kind ∧ Json.sameOption a.constant b.constant ∧
    Json.sameOption (a.enumeration.map .array) (b.enumeration.map .array) ∧
    a.annotations.sameBody b.annotations := by
  cases a
  simp [structureEq, Kind.structureEq_iff, Json.sameItemsOption_eq, and_assoc]

theorem structureEq_self {a : Node} (h : ∀ n ∈ a.nodes, n.ValuesDistinct) : a.structureEq a := by
  induction a using Node.induction with
  | step a ih =>
    have ha := h a a.self_mem_nodes
    have hkind : a.kind.Matches a.kind := by
      apply Kind.matches_self
      intro child hc
      exact ih child hc fun n hn => h n (mem_nodes_of_child hc hn)
    exact matches_iff.mpr ⟨hkind, Json.sameOption_self ha.constant, Json.sameOption_self ha.items,
      Annotations.sameBody_self ha.default⟩

theorem structureEq_symm {a b : Node} (h : ∀ n ∈ a.nodes, n.ValuesDistinct) (hab : a.structureEq b) :
    b.structureEq a := by
  induction a using Node.induction generalizing b with
  | step a ih =>
    have ha := h a a.self_mem_nodes
    obtain ⟨hkind, hconstant, henum, hbody⟩ := matches_iff.mp hab
    have hkind : b.kind.Matches a.kind := by
      apply hkind.symm
      intro child hc b hb
      exact ih child hc (fun n hn => h n (mem_nodes_of_child hc hn)) hb
    exact matches_iff.mpr ⟨hkind, Json.sameOption_symm ha.constant hconstant, Json.sameOption_symm ha.items henum,
      Annotations.sameBody_symm ha.default hbody⟩

end Node

/-- What is said about anything that may be held beside what is listed, if anything may: annotations, where a node
says it. -/
def Additional.wildcard? : Additional → Option (Option Annotations)
  | .allowed true => some none
  | .allowed false => none
  | .node inner => if inner.isPlainAny then some (some inner.annotations) else none

def Kind.wildcard? : Kind → Option (Option Annotations)
  | .object _ additional => additional.wildcard?
  | .tuple _ additional _ => additional.wildcard?
  | _ => none

/-- What is said wherever anything may be held, in the order of the nodes. -/
def Node.wildcards (node : Node) : List (Option Annotations) := node.nodes.filterMap fun n => n.kind.wildcard?

/-- Annotations on both sides are the same but for the title. -/
def Compatible : Option Annotations → Option Annotations → Prop
  | some a, some b => a.sameBody b
  | _, _ => True

theorem Node.wildcards_eq (node : Node) :
    node.wildcards = node.kind.wildcard?.toList ++ node.kind.children.flatMap Node.wildcards :=
  node.filterMap_nodes fun n => n.kind.wildcard?

/-- A statement that is true just if two lists of wildcards, equally long, are compatible one by one. -/
def DecidedBy (p : Prop) (xs ys : List (Option Annotations)) : Prop :=
  xs.length = ys.length ∧ (p ↔ List.Forall₂ Compatible xs ys)

theorem forall₂_append_iff {α : Type} {R : α → α → Prop} {xs ys xs' ys' : List α} (h : xs.length = ys.length) :
    List.Forall₂ R (xs ++ xs') (ys ++ ys') ↔ List.Forall₂ R xs ys ∧ List.Forall₂ R xs' ys' := by
  induction xs generalizing ys with
  | nil =>
    obtain rfl := List.length_eq_zero_iff.mp h.symm
    simp
  | cons x xs ih =>
    cases ys with
    | nil => cases h
    | cons y ys => simp [ih (Nat.succ.inj h), and_assoc]

namespace DecidedBy

variable {p q : Prop} {xs ys xs' ys' : List (Option Annotations)}

theorem nil (hp : p) : DecidedBy p [] [] := ⟨rfl, by simp [hp]⟩

theorem congr (h : DecidedBy p xs ys) (hpq : q ↔ p) : DecidedBy q xs ys := ⟨h.1, hpq.trans h.2⟩

theorem append (h : DecidedBy p xs ys) (h' : DecidedBy q xs' ys') : DecidedBy (p ∧ q) (xs ++ xs') (ys ++ ys') := by
  refine ⟨by simp [h.1, h'.1], ?_⟩
  rw [forall₂_append_iff h.1, h.2, h'.2]

theorem flatMap {α : Type} {R : α → α → Prop} {w : α → List (Option Annotations)} {as cs : List α}
    (h : List.Forall₂ (fun a c => DecidedBy (R a c) (w a) (w c)) as cs) :
    DecidedBy (List.Forall₂ R as cs) (as.flatMap w) (cs.flatMap w) := by
  induction h with
  | nil => exact nil .nil
  | cons hfirst _ ih =>
    rw [List.flatMap_cons, List.flatMap_cons]
    exact (hfirst.append ih).congr (by simp)

end DecidedBy

theorem Kind.Matches.isAny {k l : Kind} (h : k.Matches l) : k.isAny = l.isAny := by
  cases h <;> rfl

theorem Json.isNone_of_sameOption {x y : Option Json} (h : sameOption x y) : x.isNone = y.isNone := by
  cases x with
  | none =>
    cases y with
    | none => rfl
    | some b => cases h
  | some a =>
    cases y with
    | none => cases h
    | some b => rfl

theorem Node.isPlainAny_eq {a b : Node} (h : a.structureEq b) : a.isPlainAny = b.isPlainAny := by
  obtain ⟨hkind, hconstant, henum, -⟩ := matches_iff.mp h
  have henum := Json.isNone_of_sameOption henum
  rw [Option.isNone_map, Option.isNone_map] at henum
  rw [isPlainAny, isPlainAny, hkind.isAny, Json.isNone_of_sameOption hconstant, henum]

/-- Of nodes that allow anything, only the annotations are left to compare. -/
theorem Node.structureEq_iff_sameBody {a b : Node} (ha : a.isPlainAny) (hb : b.isPlainAny) :
    a.structureEq b ↔ a.annotations.sameBody b.annotations := by
  obtain ⟨kind, constant, enumeration, annotations, loc⟩ := a
  obtain ⟨kind', constant', enumeration', annotations', loc'⟩ := b
  simp only [isPlainAny, Bool.and_eq_true, Option.isNone_iff_eq_none] at ha hb
  obtain ⟨⟨hkind, rfl⟩, rfl⟩ := ha
  obtain ⟨⟨hkind', rfl⟩, rfl⟩ := hb
  cases kind <;> cases hkind
  cases kind' <;> cases hkind'
  simp [structureEq, Kind.structureEq, Json.sameOption, Json.sameItemsOption]

theorem Node.wildcards_of_isPlainAny {a : Node} (h : a.isPlainAny) : a.wildcards = [] := by
  simp only [isPlainAny, Bool.and_eq_true] at h
  have hkind := h.1.1
  rw [wildcards_eq]
  cases hk : a.kind <;> rw [hk] at hkind <;> first | rfl | cases hkind

namespace Additional

variable {x y z : Additional} {v w : Option Annotations}

theorem isSome_wildcard? (h : x.structureEq y) : x.wildcard?.isSome = y.wildcard?.isSome := by
  cases x with
  | allowed flag =>
    cases y with
    | allowed other =>
      obtain rfl : flag = other := by simpa [structureEq] using h
      rfl
    | node b =>
      simp only [structureEq, Bool.and_eq_true] at h
      simp [wildcard?, h.1, h.2]
  | node a =>
    cases y with
    | allowed flag =>
      simp only [structureEq, Bool.and_eq_true] at h
      simp [wildcard?, h.1, h.2]
    | node b =>
      simp only [structureEq] at h
      rw [wildcard?, wildcard?, Node.isPlainAny_eq h]
      split <;> rfl

theorem wildcard?_eq_some (h : x.wildcard? = some v) :
    (x = .allowed true ∧ v = none) ∨ ∃ a : Node, a.isPlainAny ∧ x = .node a ∧ v = some a.annotations := by
  cases x with
  | allowed flag =>
    cases flag with
    | false => cases h
    | true => exact .inl ⟨rfl, (Option.some.inj h).symm⟩
  | node a =>
    rw [wildcard?] at h
    split at h
    · next ha => exact .inr ⟨a, ha, rfl, (Option.some.inj h).symm⟩
    · cases h

theorem wildcard?_eq_none (h : x.wildcard? = none) : x = .allowed false ∨ ∃ a : Node, x = .node a := by
  cases x with
  | allowed flag =>
    cases flag with
    | false => exact .inl rfl
    | true => cases h
  | node a => exact .inr ⟨a, rfl⟩

theorem flatMap_wildcards (h : x.wildcard? = some v) : x.children.flatMap Node.wildcards = [] := by
  rcases wildcard?_eq_some h with ⟨rfl, -⟩ | ⟨a, ha, rfl, -⟩
  · rfl
  · simp [children, Node.wildcards_of_isPlainAny ha]

/-- Where anything may be held, only what is said about it is left to compare. -/
theorem structureEq_iff_compatible (hx : x.wildcard? = some v) (hz : z.wildcard? = some w) :
    x.structureEq z ↔ Compatible v w := by
  rcases wildcard?_eq_some hx with ⟨rfl, rfl⟩ | ⟨a, ha, rfl, rfl⟩
  · rcases wildcard?_eq_some hz with ⟨rfl, rfl⟩ | ⟨c, hc, rfl, rfl⟩
    · simp [structureEq, Compatible]
    · simp [structureEq, Compatible, hc]
  · rcases wildcard?_eq_some hz with ⟨rfl, rfl⟩ | ⟨c, hc, rfl, rfl⟩
    · simp [structureEq, Compatible, ha]
    · simp only [structureEq, Compatible]
      exact Node.structureEq_iff_sameBody ha hc

/-- Additional content that equals some of what equals other content: what is said where anything may be held, and what
is said inside, decide whether the two are equal. -/
theorem decidedBy (h : ∀ child ∈ x.children, ∀ b c : Node, child.structureEq b → b.structureEq c →
      DecidedBy (child.structureEq c) child.wildcards c.wildcards) (hxy : x.structureEq y) (hyz : y.structureEq z) :
    ∃ own inner : Prop, (x.structureEq z ↔ own ∧ inner) ∧ DecidedBy own x.wildcard?.toList z.wildcard?.toList ∧
      DecidedBy inner (x.children.flatMap Node.wildcards) (z.children.flatMap Node.wildcards) := by
  have hsome : x.wildcard?.isSome = z.wildcard?.isSome := (isSome_wildcard? hxy).trans (isSome_wildcard? hyz)
  cases hx : x.wildcard? with
  | some v =>
    cases hz : z.wildcard? with
    | none => simp [hx, hz] at hsome
    | some w =>
      refine ⟨Compatible v w, True, ?_, ⟨rfl, by simp⟩, ?_⟩
      · rw [structureEq_iff_compatible hx hz, and_true]
      · rw [flatMap_wildcards hx, flatMap_wildcards hz]
        exact .nil trivial
  | none =>
    have hy : y.wildcard? = none := by simpa [hx] using (isSome_wildcard? hxy).symm
    have hz : z.wildcard? = none := by simpa [hx] using hsome.symm
    rw [hz]
    rcases wildcard?_eq_none hx with rfl | ⟨a, rfl⟩
    · have hfalse : y = .allowed false := by
        rcases wildcard?_eq_none hy with rfl | ⟨b, rfl⟩
        · rfl
        · simp [structureEq] at hxy
      subst hfalse
      rcases wildcard?_eq_none hz with rfl | ⟨c, rfl⟩
      · exact ⟨True, True, by simp [structureEq], .nil trivial, .nil trivial⟩
      · simp [structureEq] at hyz
    · have hnode : ∃ b : Node, y = .node b := by
        rcases wildcard?_eq_none hy with rfl | hb
        · simp [structureEq] at hxy
        · exact hb
      obtain ⟨b, rfl⟩ := hnode
      rcases wildcard?_eq_none hz with rfl | ⟨c, rfl⟩
      · simp [structureEq] at hyz
      · simp only [structureEq] at hxy hyz ⊢
        have hac := h a (List.mem_singleton_self a) b c hxy hyz
        refine ⟨True, a.structureEq c, by rw [true_and], .nil trivial, ?_⟩
        simpa [children] using hac

end Additional

namespace Kind

theorem matches_object_iff {ps rs : List (String × Property)} {x z : Additional} :
    (object ps x).Matches (.object rs z) ↔ List.Forall₂ PropertyMatches ps rs ∧ x.structureEq z := by
  constructor
  · intro h
    cases h with
    | simple hs => cases hs
    | object hp hx => exact ⟨hp, hx⟩
  · intro h
    exact .object h.1 h.2

theorem matches_array_iff {a c : Node} : (array a).Matches (.array c) ↔ a.structureEq c := by
  constructor
  · intro h
    cases h with
    | simple hs => cases hs
    | array h => exact h
  · exact .array

theorem matches_tuple_iff {as cs : List Node} {x z : Additional} {m : Nat} : (tuple as x m).Matches (.tuple cs z m) ↔
    List.Forall₂ (fun a c => a.structureEq c) as cs ∧ x.structureEq z := by
  constructor
  · intro h
    cases h with
    | simple hs => cases hs
    | tuple h hx => exact ⟨h, hx⟩
  · intro h
    exact .tuple h.1 h.2

theorem matches_or_iff {as cs : List Node} :
    (or as).Matches (.or cs) ↔ List.Forall₂ (fun a c => a.structureEq c) as cs := by
  constructor
  · intro h
    cases h with
    | simple hs => cases hs
    | or h => exact h
  · exact .or

theorem matches_and_iff {as cs : List Node} :
    (and as).Matches (.and cs) ↔ List.Forall₂ (fun a c => a.structureEq c) as cs := by
  constructor
  · intro h
    cases h with
    | simple hs => cases hs
    | and h => exact h
  · exact .and

theorem wildcard?_of_isSimple {k : Kind} (h : k.isSimple) : k.wildcard? = none := by
  cases k <;> first | rfl | cases h

theorem children_of_isSimple {k : Kind} (h : k.isSimple) : k.children = [] := by
  cases k <;> first | rfl | cases h

/-- Kinds with a third between them: what is said where anything may be held decides whether they match. -/
theorem Matches.decidedBy {k l m : Kind} (hkl : k.Matches l) (hlm : l.Matches m)
    (h : ∀ child ∈ k.children, ∀ b c : Node, child.structureEq b → b.structureEq c →
      DecidedBy (child.structureEq c) child.wildcards c.wildcards) :
    DecidedBy (k.Matches m) (k.wildcard?.toList ++ k.children.flatMap Node.wildcards)
      (m.wildcard?.toList ++ m.children.flatMap Node.wildcards) := by
  cases hkl with
  | simple hs =>
    cases hlm with
    | simple _ =>
      rw [wildcard?_of_isSimple hs, children_of_isSimple hs]
      exact .nil (.simple hs)
    | _ => cases hs
  | object hp hx =>
    cases hlm with
    | simple hs => cases hs
    | object hq hy =>
      obtain ⟨own, inner, hiff, hown, hinner⟩ :=
        Additional.decidedBy (fun child hc => h child (List.mem_append_right _ hc)) hx hy
      have hproperties := DecidedBy.flatMap <| forall₂_comp_of_mem (S := fun p r =>
        DecidedBy (PropertyMatches p r) p.2.node.wildcards r.2.node.wildcards) (fun p hp q r hpq hqr => by
          have hnode := h _ (List.mem_append_left _ (List.mem_map_of_mem hp)) _ _ hpq.2 hqr.2
          refine hnode.congr ?_
          simp [PropertyMatches, hpq.1, hqr.1]) hp hq
      have hall := hown.append (hproperties.append hinner)
      simp only [wildcard?, children, List.flatMap_append, List.flatMap_map]
      refine hall.congr ?_
      rw [matches_object_iff, hiff]
      exact and_left_comm
  | array hab =>
    cases hlm with
    | simple hs => cases hs
    | array hbc =>
      have hnode := h _ (List.mem_singleton_self _) _ _ hab hbc
      simpa [wildcard?, children, matches_array_iff] using hnode
  | tuple hab hx =>
    cases hlm with
    | simple hs => cases hs
    | tuple hbc hy =>
      obtain ⟨own, inner, hiff, hown, hinner⟩ :=
        Additional.decidedBy (fun child hc => h child (List.mem_append_right _ hc)) hx hy
      have hnodes := DecidedBy.flatMap <|
        forall₂_comp_of_mem (fun a ha => h a (List.mem_append_left _ ha)) hab hbc
      have hall := hown.append (hnodes.append hinner)
      simp only [wildcard?, children, List.flatMap_append]
      refine hall.congr ?_
      rw [matches_tuple_iff, hiff]
      exact and_left_comm
  | or hab =>
    cases hlm with
    | simple hs => cases hs
    | or hbc => exact (DecidedBy.flatMap (forall₂_comp_of_mem h hab hbc)).congr matches_or_iff
  | and hab =>
    cases hlm with
    | simple hs => cases hs
    | and hbc => exact (DecidedBy.flatMap (forall₂_comp_of_mem h hab hbc)).congr matches_and_iff

end Kind

theorem Node.structureEq_decidedBy {a b c : Node} (hab : a.structureEq b) (hbc : b.structureEq c) :
    DecidedBy (a.structureEq c) a.wildcards c.wildcards := by
  induction a using Node.induction generalizing b c with
  | step a ih =>
    obtain ⟨hkind, hconstant, henum, hbody⟩ := matches_iff.mp hab
    obtain ⟨hkind', hconstant', henum', hbody'⟩ := matches_iff.mp hbc
    have hdecided := hkind.decidedBy hkind' fun child hc b c => ih child hc
    rw [← wildcards_eq, ← wildcards_eq] at hdecided
    refine hdecided.congr ?_
    rw [matches_iff]
    constructor
    · exact And.left
    · intro h
      exact ⟨h, Json.sameOption_trans hconstant hconstant', Json.sameOption_trans henum henum',
        Annotations.sameBody_trans hbody hbody'⟩

namespace Document

def wildcards (d : Document) : List (Option Annotations) := d.types.flatMap fun t => t.node.wildcards

theorem structureEq_iff {d e : Document} : d.structureEq e ↔ d.version = e.version ∧
    List.Forall₂ (fun s t : NamedType => s.name = t.name ∧ s.node.structureEq t.node) d.types e.types := by
  have hzip (ss ts : List NamedType) : (ss.length = ts.length ∧ ((ss.zip ts).all fun p => p.1.structureEq p.2)) ↔
      List.Forall₂ (fun s t : NamedType => s.name = t.name ∧ s.node.structureEq t.node) ss ts := by
    induction ss generalizing ts with
    | nil => cases ts <;> simp
    | cons s ss ih =>
      cases ts with
      | nil => simp
      | cons t ts =>
        rw [List.forall₂_cons, ← ih]
        simp [NamedType.structureEq]
        tauto
  simp only [structureEq, Bool.and_eq_true, beq_iff_eq, and_assoc, hzip]

/-- No object in a value of a document has a name twice. -/
def ValuesDistinct (d : Document) : Prop := ∀ t ∈ d.types, ∀ n ∈ t.node.nodes, n.ValuesDistinct

variable {d e f : Document}

theorem structureEq_self (h : d.ValuesDistinct) : d.structureEq d := by
  rw [structureEq_iff, List.forall₂_same]
  refine ⟨rfl, fun t ht => ⟨rfl, Node.structureEq_self (h t ht)⟩⟩

theorem structureEq_symm (h : d.ValuesDistinct) (hde : d.structureEq e) : e.structureEq d := by
  rw [structureEq_iff] at hde ⊢
  refine ⟨hde.1.symm, forall₂_symm_of_mem ?_ hde.2⟩
  intro s hs t hst
  exact ⟨hst.1.symm, Node.structureEq_symm (h s hs) hst.2⟩

theorem structureEq_decidedBy (hde : d.structureEq e) (hef : e.structureEq f) :
    DecidedBy (d.structureEq f) d.wildcards f.wildcards := by
  rw [structureEq_iff] at hde hef
  have htypes := DecidedBy.flatMap <| forall₂_comp_of_mem (S := fun s u : NamedType =>
    DecidedBy (s.name = u.name ∧ s.node.structureEq u.node) s.node.wildcards u.node.wildcards)
    (fun s _ t u hst htu => by
      refine (Node.structureEq_decidedBy hst.2 htu.2).congr ?_
      simp [hst.1, htu.1]) hde.2 hef.2
  refine htypes.congr ?_
  rw [structureEq_iff]
  simp [hde.1, hef.1]

/-- Structural equality of documents and of nodes is reflexive and symmetric. Of two that equal a third, it holds just if
the annotations agree, but for titles, wherever both say by a node that anything may be held. -/
theorem structureEq_equivalence (d e f : Document) (a b c : Node) (hd : d.ValuesDistinct)
    (ha : ∀ n ∈ a.nodes, n.ValuesDistinct) :
    (d.structureEq d ∧ (d.structureEq e → e.structureEq d) ∧
      (d.structureEq e → e.structureEq f →
        (d.structureEq f ↔ List.Forall₂ Compatible d.wildcards f.wildcards))) ∧
    (a.structureEq a ∧ (a.structureEq b → b.structureEq a) ∧
      (a.structureEq b → b.structureEq c →
        (a.structureEq c ↔ List.Forall₂ Compatible a.wildcards c.wildcards))) := by
  constructor
  · refine ⟨structureEq_self hd, structureEq_symm hd, ?_⟩
    intro hde hef
    exact (structureEq_decidedBy hde hef).2
  · refine ⟨Node.structureEq_self ha, Node.structureEq_symm ha, ?_⟩
    intro hab hbc
    exact (Node.structureEq_decidedBy hab hbc).2

/-- A box that may hold anything, said by `true`, equals boxes whose notes on what they hold differ. -/
theorem structureEq_equivalence_boxes :
    let noted (text : String) : Additional := .node { kind := .any, annotations := { description := some text } }
    let box (additional : Additional) : Node := .of (.object [] additional)
    let boxes (additional : Additional) : Document := ⟨currentVersion, [⟨"Box", box additional⟩]⟩
    (boxes (noted "Tools.")).ValuesDistinct ∧ (boxes (noted "Tools.")).structureEq (boxes (.allowed true)) ∧
      (boxes (.allowed true)).structureEq (boxes (noted "Tools.")) ∧
      (boxes (.allowed true)).structureEq (boxes (noted "Toys.")) ∧
      ¬ (boxes (noted "Tools.")).structureEq (boxes (noted "Toys.")) := by
  intro noted box boxes
  have hnodes : ∀ n ∈ (box (noted "Tools.")).nodes, n.ValuesDistinct := by
    simp [box, noted, Node.of, Node.nodes, Kind.nodes, nodesOfProperties, Additional.nodes, Node.valuesDistinct_iff]
  have hvalues : (boxes (noted "Tools.")).ValuesDistinct := by
    intro t ht
    obtain rfl := List.mem_singleton.mp ht
    exact hnodes
  have hopen (text : String) : (noted text).structureEq (.allowed true) ∧
      (Additional.allowed true).structureEq (noted text) := by
    simp [noted, Additional.structureEq, Node.isPlainAny, Kind.isAny]
  have hboxes {x y : Additional} (h : x.structureEq y) : (boxes x).structureEq (boxes y) := by
    simp [boxes, box, Node.of, structureEq, NamedType.structureEq, Node.structureEq, Kind.structureEq,
      structureEqProperties, Json.sameOption, Json.sameItemsOption, Annotations.sameBody, h]
  have hwildcards (text : String) :
      (boxes (noted text)).wildcards = [some { description := some text }] := by
    simp [boxes, box, noted, Node.of, wildcards, Node.wildcards_eq, Kind.wildcard?, Additional.wildcard?,
      Kind.children, Additional.children, Node.isPlainAny, Kind.isAny]
  have htools := hboxes (hopen "Tools.").1
  have htoys := hboxes (hopen "Toys.").2
  obtain ⟨⟨-, hsymm, htrans⟩, -⟩ := structureEq_equivalence (boxes (noted "Tools.")) (boxes (.allowed true))
    (boxes (noted "Toys.")) (box (noted "Tools.")) (box (.allowed true)) (box (noted "Toys.")) hvalues hnodes
  refine ⟨hvalues, htools, hsymm htools, htoys, ?_⟩
  rw [htrans htools htoys, hwildcards, hwildcards]
  simp [Compatible, Annotations.sameBody]

end Document

end TypeSchema
