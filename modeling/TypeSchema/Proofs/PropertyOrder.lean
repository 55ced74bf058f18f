import Mathlib.Data.List.Nodup
import TypeSchema.Proofs.StructuralEquality

namespace TypeSchema

namespace Entries

variable {α : Type} {entries others sorted : Entries α}

theorem names_eq_of_forall₂ {R : String × α → String × α → Prop} (h : List.Forall₂ R entries others)
    (hr : ∀ a b, R a b → a.1 = b.1) : entries.names = others.names := by
  rw [names, names, ← List.forall₂_eq_eq_eq, List.forall₂_map_left_iff, List.forall₂_map_right_iff]
  exact h.imp hr

/-- Entries of distinct names that are all found among others, no more of them, are these one by one, once they are put
into order. -/
theorem exists_sorted {R : α → α → Prop} (h : entries.names.Nodup) (hlength : entries.length = others.length)
    (hfound : ∀ entry ∈ entries, ∃ v, others.get? entry.1 = some v ∧ R entry.2 v) :
    ∃ sorted, sorted.Perm others ∧ List.Forall₂ (fun a b : String × α => a.1 = b.1 ∧ R a.2 b.2) entries sorted := by
  have hpaired : ∃ sorted : Entries α, sorted ⊆ others ∧
      List.Forall₂ (fun a b : String × α => a.1 = b.1 ∧ R a.2 b.2) entries sorted := by
    clear h hlength
    induction entries with
    | nil => exact ⟨[], List.nil_subset _, .nil⟩
    | cons entry rest ih =>
      obtain ⟨v, hv, hr⟩ := hfound entry List.mem_cons_self
      obtain ⟨sorted, hsub, hrest⟩ := ih fun e he => hfound e (List.mem_cons_of_mem _ he)
      exact ⟨(entry.1, v) :: sorted, List.cons_subset.mpr ⟨mem_of_get? hv, hsub⟩, .cons ⟨rfl, hr⟩ hrest⟩
  obtain ⟨sorted, hsub, hpairs⟩ := hpaired
  rw [names_eq_of_forall₂ hpairs fun a b hab => hab.1] at h
  have hnodup : sorted.Nodup := List.Nodup.of_map Prod.fst h
  have hle : others.length ≤ sorted.length := Nat.le_of_eq (hlength.symm.trans hpairs.length_eq)
  exact ⟨sorted, (hnodup.subperm hsub).perm_of_length_le hle, hpairs⟩

/-- Entries of distinct names are in order if their names are. -/
theorem eq_of_names_eq (h : others.names.Nodup) (hperm : sorted.Perm others) (hnames : sorted.names = others.names) :
    sorted = others := by
  apply List.ext_getElem hperm.length_eq
  intro i hi hi'
  have hname : sorted[i].1 = others[i].1 := by
    have := List.getElem_of_eq hnames (by simpa [names] using hi)
    simpa [names] using this
  have hmem : sorted[i] ∈ others := hperm.mem_iff.mp (List.getElem_mem hi)
  exact List.inj_on_of_nodup_map h hmem (List.getElem_mem hi') hname

end Entries

/-- Lists put together from parts that are equally long are equal just if the parts are. -/
theorem flatMap_eq_iff {α β : Type} {w : α → List β} {as bs : List α}
    (h : List.Forall₂ (fun a b => (w a).length = (w b).length) as bs) :
    as.flatMap w = bs.flatMap w ↔ List.Forall₂ (fun a b => w a = w b) as bs := by
  induction h with
  | nil => simp
  | cons hfirst _ ih =>
    rw [List.flatMap_cons, List.flatMap_cons, List.append_eq_append_iff_of_size_eq_left hfirst, ih, List.forall₂_cons]

def Property.Coincides (p q : Property) : Prop := p.node.same q.node ∧ p.required = q.required

/-- Kinds of one form whose parts are the same, once the properties are put into order. -/
inductive Kind.Coincides : Kind → Kind → Prop
  | simple {k : Kind} (h : k.isSimple) : Coincides k k
  | object {ps qs sorted : List (String × Property)} {x y : Additional} (hperm : sorted.Perm qs)
      (hp : List.Forall₂ (fun p q => p.1 = q.1 ∧ p.2.Coincides q.2) ps sorted) (hx : x.same y) :
      Coincides (.object ps x) (.object qs y)
  | array {a b : Node} (h : a.same b) : Coincides (.array a) (.array b)
  | tuple {as bs : List Node} {x y : Additional} {minItems : Nat}
      (h : List.Forall₂ (fun a b => a.same b) as bs) (hx : x.same y) :
      Coincides (.tuple as x minItems) (.tuple bs y minItems)
  | or {as bs : List Node} (h : List.Forall₂ (fun a b => a.same b) as bs) : Coincides (.or as) (.or bs)
  | and {as bs : List Node} (h : List.Forall₂ (fun a b => a.same b) as bs) : Coincides (.and as) (.and bs)

theorem sameNodes_iff {as bs : List Node} : sameNodes as bs ↔ List.Forall₂ (fun a b => a.same b) as bs := by
  induction as generalizing bs with
  | nil => cases bs <;> simp [sameNodes]
  | cons a as ih => cases bs <;> simp [sameNodes, ih]

theorem sameProperties_iff {ps : List (String × Property)} {qs : Entries Property} :
    sameProperties ps qs ↔ ∀ p ∈ ps, ∃ q, qs.get? p.1 = some q ∧ p.2.Coincides q := by
  induction ps with
  | nil => simp [sameProperties]
  | cons p ps ih =>
    obtain ⟨name, node, required⟩ := p
    simp only [sameProperties, Bool.and_eq_true, ih, List.forall_mem_cons]
    rcases qs.get? name with _ | ⟨other, requiredThere⟩ <;> simp [Property.Coincides]

theorem Kind.coincides_of_same {k l : Kind} (hk : k.Distinct) (h : k.same l) : k.Coincides l := by
  cases k <;> cases l <;>
    simp only [same, Bool.and_eq_true, beq_iff_eq, sameNodes_iff, sameProperties_iff, Bool.false_eq_true] at h
  case object.object =>
    obtain ⟨⟨hlength, hfound⟩, hx⟩ := h
    obtain ⟨sorted, hperm, hp⟩ := Entries.exists_sorted hk hlength hfound
    exact .object hperm hp hx
  case array.array => exact .array h
  case tuple.tuple =>
    obtain ⟨⟨hnodes, hx⟩, rfl⟩ := h
    exact .tuple hnodes hx
  case or.or => exact .or h
  case and.and => exact .and h
  case ref.ref =>
    subst h
    exact .simple rfl
  all_goals exact .simple rfl

theorem Node.coincides_of_same {a b : Node} (hk : a.kind.Distinct) (h : a.same b) : a.kind.Coincides b.kind ∧
    Json.sameOption a.constant b.constant ∧ Json.sameOption (a.enumeration.map .array) (b.enumeration.map .array) ∧
    a.annotations.same b.annotations := by
  cases a
  simp only [same, Bool.and_eq_true, Json.sameItemsOption_eq] at h
  obtain ⟨⟨⟨⟨hkind, hconstant⟩, henum⟩, hannotations⟩, -⟩ := h
  exact ⟨Kind.coincides_of_same hk hkind, hconstant, henum, hannotations⟩

theorem Annotations.sameBody_of_same {a b : Annotations} (h : a.same b) : a.sameBody b := by
  simp_all [same, sameBody]

theorem Additional.forall₂_children {x y : Additional} (h : x.same y) :
    List.Forall₂ (fun a b => a.same b) x.children y.children := by
  cases x <;> cases y <;> simp_all [same, children]

theorem Additional.structureEq_iff_forall₂ {x y : Additional} (h : x.same y) :
    x.structureEq y ↔ List.Forall₂ (fun a b => a.structureEq b) x.children y.children := by
  cases x <;> cases y <;> simp_all [same, structureEq, children]

/-- The names of the properties of an object, in their order. -/
def Kind.propertyNames? : Kind → Option (List String)
  | .object properties _ => some (Entries.names properties)
  | _ => none

/-- The names of the properties of each object in a tree, in the order of the nodes. -/
def Node.propertyOrders (node : Node) : List (List String) := node.nodes.filterMap fun n => n.kind.propertyNames?

theorem Node.propertyOrders_eq (node : Node) :
    node.propertyOrders = node.kind.propertyNames?.toList ++ node.kind.children.flatMap Node.propertyOrders :=
  node.filterMap_nodes fun n => n.kind.propertyNames?

namespace Kind.Coincides

section

variable {ps qs sorted : List (String × Property)} (hn : (Entries.names ps).Nodup) (hperm : sorted.Perm qs)
  (hp : List.Forall₂ (fun p q => p.1 = q.1 ∧ p.2.Coincides q.2) ps sorted)
include hn hperm hp

/-- Properties that coincide need not be put into order if their names stand in one. -/
theorem sorted_eq (horder : Entries.names ps = Entries.names qs) : sorted = qs := by
  have hsorted : Entries.names sorted = Entries.names qs :=
    (Entries.names_eq_of_forall₂ hp fun p q hpq => hpq.1).symm.trans horder
  exact Entries.eq_of_names_eq (horder ▸ hn) hperm hsorted

/-- Properties that coincide match just if they stand in one order and their nodes are equal in structure. -/
theorem forall₂_propertyMatches_iff : List.Forall₂ PropertyMatches ps qs ↔ Entries.names ps = Entries.names qs ∧
    List.Forall₂ (fun a b => a.structureEq b) (ps.map fun p => p.2.node) (qs.map fun q => q.2.node) := by
  rw [List.forall₂_map_left_iff, List.forall₂_map_right_iff]
  constructor
  · intro h
    exact ⟨Entries.names_eq_of_forall₂ h fun p q hpq => hpq.1.1, h.imp fun p q hpq => hpq.2⟩
  · rintro ⟨horder, hnodes⟩
    obtain rfl := sorted_eq hn hperm hp horder
    exact List.Forall₂.mp (fun p q hpq hnode => ⟨⟨hpq.1, hpq.2.2⟩, hnode⟩) hp hnodes

end

variable {k l : Kind}

/-- What is directly inside is the same in some order, and in its own if the properties stand in one. -/
theorem children (h : k.Coincides l) (hk : k.Distinct) :
    ∃ sorted, sorted.Perm l.children ∧ List.Forall₂ (fun a b => a.same b) k.children sorted ∧
      (k.propertyNames? = l.propertyNames? → sorted = l.children) := by
  cases h with
  | simple hs => exact ⟨[], by simp [children_of_isSimple hs]⟩
  | @object ps qs sorted x y hperm hp hx =>
    refine ⟨sorted.map (fun q => q.2.node) ++ y.children, (hperm.map _).append_right _, ?_, fun horder => ?_⟩
    · apply List.rel_append _ (Additional.forall₂_children hx)
      rw [List.forall₂_map_left_iff, List.forall₂_map_right_iff]
      exact hp.imp fun p q hpq => hpq.2.1
    · rw [sorted_eq hk hperm hp (Option.some.inj horder)]
      rfl
  | array h => exact ⟨_, .refl _, .cons h .nil, fun _ => rfl⟩
  | tuple h hx => exact ⟨_, .refl _, List.rel_append h (Additional.forall₂_children hx), fun _ => rfl⟩
  | or h => exact ⟨_, .refl _, h, fun _ => rfl⟩
  | and h => exact ⟨_, .refl _, h, fun _ => rfl⟩

theorem length_propertyNames? (h : k.Coincides l) : k.propertyNames?.toList.length = l.propertyNames?.toList.length := by
  cases h <;> rfl

/-- Kinds that coincide match just if the properties stand in one order and what is directly inside is equal in
structure. -/
theorem matches_iff (h : k.Coincides l) (hk : k.Distinct) : k.Matches l ↔
    k.propertyNames? = l.propertyNames? ∧ List.Forall₂ (fun a b => a.structureEq b) k.children l.children := by
  cases h with
  | simple hs => simp [children_of_isSimple hs, Matches.simple hs]
  | @object ps qs sorted x y hperm hp hx =>
    have hlength : (ps.map fun p => p.2.node).length = (qs.map fun q => q.2.node).length := by
      simp [hp.length_eq, hperm.length_eq]
    rw [matches_object_iff, forall₂_propertyMatches_iff hk hperm hp, Additional.structureEq_iff_forall₂ hx, and_assoc,
      Kind.children, Kind.children, forall₂_append_iff hlength]
    simp [propertyNames?]
  | array h => simp [matches_array_iff, propertyNames?, Kind.children]
  | @tuple as bs x y minItems h hx =>
    rw [matches_tuple_iff, Additional.structureEq_iff_forall₂ hx, Kind.children, Kind.children,
      forall₂_append_iff h.length_eq]
    simp [propertyNames?]
  | or h => simp [matches_or_iff, propertyNames?, Kind.children]
  | and h => simp [matches_and_iff, propertyNames?, Kind.children]

end Kind.Coincides

namespace Node

variable {a b : Node}

theorem length_propertyOrders (hd : ∀ n ∈ a.nodes, n.kind.Distinct) (h : a.same b) :
    a.propertyOrders.length = b.propertyOrders.length := by
  induction a using Node.induction generalizing b with
  | step a ih =>
    have hkind := (coincides_of_same (hd a a.self_mem_nodes) h).1
    obtain ⟨sorted, hperm, hchildren, -⟩ := hkind.children (hd a a.self_mem_nodes)
    have hinside : (a.kind.children.flatMap propertyOrders).length = (sorted.flatMap propertyOrders).length := by
      rw [List.length_flatMap, List.length_flatMap]
      congr 1
      rw [← List.forall₂_eq_eq_eq, List.forall₂_map_left_iff, List.forall₂_map_right_iff]
      have hboth := (List.forall₂_and_left _ _).mpr ⟨fun child hc => hc, hchildren⟩
      exact hboth.imp fun child c hc => ih child hc.1 (fun n hn => hd n (mem_nodes_of_child hc.1 hn)) hc.2
    rw [propertyOrders_eq, propertyOrders_eq, List.length_append, List.length_append, hkind.length_propertyNames?, hinside,
      (hperm.flatMap_right propertyOrders).length_eq]

/-- Nodes that are equal in everything are equal in structure just if the properties of each object stand in one
order. -/
theorem structureEq_iff_propertyOrders (hd : ∀ n ∈ a.nodes, n.kind.Distinct) (h : a.same b) :
    a.structureEq b ↔ a.propertyOrders = b.propertyOrders := by
  induction a using Node.induction generalizing b with
  | step a ih =>
    have hk := hd a a.self_mem_nodes
    obtain ⟨hkind, hconstant, henum, hannotations⟩ := coincides_of_same hk h
    have htop : a.kind.propertyNames?.toList = b.kind.propertyNames?.toList ↔
        a.kind.propertyNames? = b.kind.propertyNames? := by
      cases a.kind.propertyNames? <;> cases b.kind.propertyNames? <;> simp
    rw [matches_iff, propertyOrders_eq a, propertyOrders_eq b,
      List.append_eq_append_iff_of_size_eq_left hkind.length_propertyNames?, hkind.matches_iff hk, htop]
    simp only [hconstant, henum, Annotations.sameBody_of_same hannotations, and_true]
    refine and_congr_right fun horder => ?_
    obtain ⟨sorted, -, hchildren, hsorted⟩ := hkind.children hk
    rw [hsorted horder] at hchildren
    have hboth := (List.forall₂_and_left _ _).mpr ⟨fun child hc => hc, hchildren⟩
    have hinside (child : Node) (hc : child ∈ a.kind.children) : ∀ n ∈ child.nodes, n.kind.Distinct :=
      fun n hn => hd n (mem_nodes_of_child hc hn)
    rw [flatMap_eq_iff (hboth.imp fun child c hc => length_propertyOrders (hinside child hc.1) hc.2)]
    constructor
    · intro hequal
      exact List.Forall₂.mp (fun child c hc he => (ih child hc.1 (hinside child hc.1) hc.2).mp he) hboth hequal
    · intro horders
      exact List.Forall₂.mp (fun child c hc he => (ih child hc.1 (hinside child hc.1) hc.2).mpr he) hboth horders

end Node

namespace Document

/-- The names of the properties of each object in a document, in their order. -/
def propertyOrders (d : Document) : List (List String) := d.types.flatMap fun t => t.node.propertyOrders

theorem same_iff {d e : Document} : d.same e ↔ d.version = e.version ∧
    List.Forall₂ (fun s t : NamedType => s.name = t.name ∧ s.node.same t.node) d.types e.types := by
  rw [List.forall₂_iff_zip]
  simp [same, NamedType.same, and_assoc]

/-- Documents that are equal in everything are equal in structure too, if and only if the properties of each object stand
in the same order in both. -/
theorem structureEq_iff_of_same (d e : Document) (hd : ∀ t ∈ d.types, ∀ n ∈ t.node.nodes, n.kind.Distinct)
    (h : d.same e) : d.structureEq e ↔ d.propertyOrders = e.propertyOrders := by
  obtain ⟨hversion, htypes⟩ := same_iff.mp h
  have hboth := (List.forall₂_and_left _ _).mpr ⟨fun t ht => ht, htypes⟩
  have hlength := hboth.imp fun s t hst => Node.length_propertyOrders (hd s hst.1) hst.2.2
  rw [structureEq_iff, propertyOrders, propertyOrders, flatMap_eq_iff hlength]
  constructor
  · rintro ⟨-, hequal⟩
    apply List.Forall₂.mp _ hboth hequal
    intro s t hst he
    exact (Node.structureEq_iff_propertyOrders (hd s hst.1) hst.2.2).mp he.2
  · intro horders
    refine ⟨hversion, List.Forall₂.mp ?_ hboth horders⟩
    intro s t hst he
    exact ⟨hst.2.1, (Node.structureEq_iff_propertyOrders (hd s hst.1) hst.2.2).mpr he⟩

/-- A point whose origin is written the other way round is equal in both ways, one whose coordinates stand the other way
round is not. -/
theorem structureEq_iff_of_same_points :
    let origin (fields : List (String × Json)) : Annotations := { defaultValue := some (.object fields) }
    let point (origin : Annotations) (properties : List (String × Property)) : Document :=
      ⟨currentVersion, [⟨"Point", { kind := .object properties (.allowed false), annotations := origin }⟩]⟩
    let x : String × Property := ("x", ⟨.of .number, true⟩)
    let y : String × Property := ("y", ⟨.of .number, true⟩)
    let d := point (origin [("x", .int 0), ("y", .int 0)]) [x, y]
    let e := point (origin [("y", .int 0), ("x", .int 0)]) [x, y]
    let f := point (origin [("x", .int 0), ("y", .int 0)]) [y, x]
    (∀ t ∈ d.types, ∀ n ∈ t.node.nodes, n.kind.Distinct) ∧ d.same e ∧ d.structureEq e ∧ d.same f ∧ ¬ d.structureEq f := by
  intro origin point x y d e f
  have hdistinct : ∀ t ∈ d.types, ∀ n ∈ t.node.nodes, n.kind.Distinct := by
    simp [d, point, x, y, Node.of, Node.nodes, Kind.nodes, nodesOfProperties, Additional.nodes, Kind.Distinct]
  have hsame : d.same e ∧ d.same f := by
    simp [d, e, f, point, origin, x, y, same, NamedType.same, Node.same, Kind.same, sameProperties, Entries.get?, Node.of,
      Additional.same, Annotations.same, Json.sameOption, Json.sameItemsOption, Json.same, Json.sameFields, Json.int,
      Number.same]
  have horder : d.propertyOrders = e.propertyOrders ∧ d.propertyOrders ≠ f.propertyOrders := by
    simp [d, e, f, point, x, y, propertyOrders, Node.propertyOrders_eq, Kind.propertyNames?, Kind.children, Node.of,
      Entries.names, Additional.children]
  refine ⟨hdistinct, hsame.1, (structureEq_iff_of_same d e hdistinct hsame.1).mpr horder.1, hsame.2, ?_⟩
  rw [structureEq_iff_of_same d f hdistinct hsame.2]
  exact horder.2

end Document

end TypeSchema
