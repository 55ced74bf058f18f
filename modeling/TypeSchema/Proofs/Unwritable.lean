import TypeSchema.Proofs.Writable

namespace TypeSchema

/-- A node that says nothing of its values: of a kind without a meaning, and without a constant or an enumeration. -/
def Node.isRefused (node : Node) : Bool :=
  match node.kind, node.constant, node.enumeration with
  | .unsupported, none, none => true
  | _, _, _ => false

mutual

/-- The nodes that the writer comes to in a node, that node first and every node before those in it. A constant or an
enumeration stands in for what is in the node, but never for the members of a union or of an intersection. -/
def Node.reached : Node → List Node
  | ⟨kind, constant, enumeration, annotations, loc⟩ =>
    ⟨kind, constant, enumeration, annotations, loc⟩ :: kind.reached (constant.isNone && enumeration.isNone)

/-- The nodes that the writer comes to behind a node of this kind. The flag says that nothing stands in for them. -/
def Kind.reached (bare : Bool) : Kind → List Node
  | .or members => reachedOf members
  | .and members => reachedOf members
  | .array element => if bare then element.reached else []
  | .tuple elements additional _ => if bare then reachedOf elements ++ additional.reached else []
  | .object properties additional => if bare then reachedOfProperties properties ++ additional.reached else []
  | _ => []

def reachedOf : List Node → List Node
  | [] => []
  | node :: rest => node.reached ++ reachedOf rest

def reachedOfProperties : List (String × Property) → List Node
  | [] => []
  | (_, ⟨node, _⟩) :: rest => node.reached ++ reachedOfProperties rest

def Additional.reached : Additional → List Node
  | .allowed _ => []
  | .node node => node.reached

end

/-- The nodes that the writer comes to in a named type. Of an intersection that is written as an object with the types
that it extends, those are the ones in the object; what stands in for the object elsewhere does not count there. -/
def NamedType.reached (named : NamedType) (roots : List NamedType) : List Node :=
  match named.node.kind with
  | .and members =>
    match heritage? roots members with
    | some record => record.object.elim [] (·.kind.reached true)
    | none => named.node.reached
  | _ => named.node.reached

theorem Node.reached_eq (node : Node) :
    node.reached = node :: node.kind.reached (node.constant.isNone && node.enumeration.isNone) := by
  obtain ⟨kind, constant, enumeration, annotations, loc⟩ := node
  rw [reached]

/-- A run that fails at the first refused node among those it comes to, and at nothing else. -/
def StopsIn {α : Type} (nodes : List Node) (run : Except Error α) : Prop :=
  match nodes.find? Node.isRefused with
  | some node => run = .error (.unsupported (.kind "unsupported") { loc := node.loc })
  | none => ∃ result, run = .ok result

namespace StopsIn

variable {α β : Type} {nodes more : List Node}

theorem ok (result : α) : StopsIn [] (.ok result) := ⟨result, rfl⟩

theorem skip {node : Node} (hnode : node.isRefused = false) {run : Except Error α} (h : StopsIn nodes run) :
    StopsIn (node :: nodes) run := by
  rwa [StopsIn, List.find?_cons_of_neg (by simp [hnode])]

theorem bind {run : Except Error α} {next : α → Except Error β} (h : StopsIn nodes run)
    (hnext : ∀ result, StopsIn more (next result)) : StopsIn (nodes ++ more) (run >>= next) := by
  rw [StopsIn] at h ⊢
  rw [List.find?_append]
  cases hf : nodes.find? Node.isRefused with
  | some node =>
    rw [hf] at h
    rw [h]
    rfl
  | none =>
    rw [hf] at h
    obtain ⟨result, rfl⟩ := h
    exact hnext result

theorem map {run : Except Error α} (h : StopsIn nodes run) (f : α → β) : StopsIn nodes (run >>= fun a => .ok (f a)) := by
  have : StopsIn (nodes ++ []) (run >>= fun a => .ok (f a)) := h.bind fun a => ok (f a)
  rwa [List.append_nil] at this

end StopsIn

namespace Encode

variable (w : Wording)

mutual

theorem type_stops (path : Path) (node : Node) : StopsIn node.reached (type w path node) := by
  rw [node.reached_eq]
  obtain ⟨kind, constant, enumeration, annotations, loc⟩ := node
  cases hk : kind.takesConstant with
  | true =>
    -- A constant or an enumeration is written in place of anything that may have one.
    match constant, enumeration with
    | some value, _ =>
      rw [ReadBack.encode_constant hk]
      cases kind <;> simp [Kind.takesConstant] at hk <;> exact .skip rfl (.ok _)
    | none, some values =>
      rw [ReadBack.encode_enumeration hk]
      cases kind <;> simp [Kind.takesConstant] at hk <;> exact .skip rfl (.ok _)
    | none, none =>
      match kind with
      | .object named more =>
        exact .skip rfl (.bind (propertyMembers_stops path named) fun _ => (indexMembers_stops path more).map _)
      | .array element => exact .skip rfl ((type_stops (.ofNode element :: path) element).map _)
      | .tuple items more _ =>
        exact .skip rfl (.bind (elements_stops path.tail 0 items) fun _ =>
          (restElements_stops path.tail items.length more).map _)
      | .string | .number | .integer | .boolean | .any | .ref _ => exact .skip rfl (.ok _)
      | .unsupported => rfl
  | false =>
    match kind with
    | .or all | .and all => exact .skip rfl ((members_stops path all).map _)
    | .null => exact .skip rfl (.ok _)

theorem members_stops (path : Path) (nodes : List Node) : StopsIn (reachedOf nodes) (members w path nodes) := by
  match nodes with
  | [] => exact .ok _
  | node :: rest => exact .bind (type_stops (.ofNode node :: path) node) fun _ => (members_stops path rest).map _

theorem elements_stops (outer : Path) (i : Nat) (nodes : List Node) :
    StopsIn (reachedOf nodes) (elements w outer i nodes) := by
  match nodes with
  | [] => exact .ok _
  | node :: rest =>
    exact .bind (type_stops (.ofNode node :: .tuple (some i) :: outer) node) fun _ =>
      (elements_stops outer (i + 1) rest).map _

theorem restElements_stops (outer : Path) (i : Nat) (more : Additional) :
    StopsIn more.reached (restElements w outer i more) := by
  match more with
  | .allowed flag => cases flag <;> exact .ok _
  | .node node => exact (type_stops (.ofNode node :: .array :: .rest :: .tuple (some i) :: outer) node).map _

theorem propertyMembers_stops (path : Path) (named : List (String × Property)) :
    StopsIn (reachedOfProperties named) (propertyMembers w path named) := by
  match named with
  | [] => exact .ok _
  | (name, ⟨node, required⟩) :: rest =>
    exact .bind (type_stops (.ofNode node :: .property name :: path) node) fun _ =>
      (propertyMembers_stops path rest).map _

theorem indexMembers_stops (path : Path) (more : Additional) : StopsIn more.reached (indexMembers w path more) := by
  match more with
  | .allowed flag => cases flag <;> exact .ok _
  | .node node => exact (type_stops (.ofNode node :: .other :: path) node).map _

end

/-- The own members of a record are written whatever stands in for its object elsewhere. -/
theorem ownMembers_stops (path : Path) (object : Option Node) (h : ∀ o ∈ object, o.kind.isObject) :
    StopsIn (object.elim [] (·.kind.reached true)) (ownMembers w path object) := by
  match object with
  | none => exact .ok _
  | some ⟨kind, constant, enumeration, annotations, loc⟩ =>
    match kind, h _ rfl with
    | .object named more, _ =>
      exact .bind (propertyMembers_stops w path named) fun _ => (indexMembers_stops w path more).map _

end Encode

/-- A named type is declared unless the writer comes to a refused node in it. -/
theorem NamedType.declaration_stops (named : NamedType) (options : WriteOptions) (roots : List NamedType) :
    StopsIn (named.reached roots) (named.declaration options roots) := by
  obtain ⟨name, kind, constant, enumeration, annotations, loc⟩ := named
  cases hrec : record? roots ⟨kind, constant, enumeration, annotations, loc⟩ with
  | some record =>
    have hown := Encode.ownMembers_stops { useUnknown := options.useUnknown } [.declaration name] record.object
      fun o ho => ((ReadBack.record_mem hrec).1 o ho).1
    rw [ReadBack.declaration_record hrec]
    match kind with
    | .and members =>
      have hmembers : heritage? roots members = some record := hrec
      simp only [reached, hmembers]
      exact hown.map _
    | .object properties additional =>
      simp only [record?, Option.ite_none_right_eq_some, Option.some.injEq] at hrec
      obtain ⟨hbare, rfl⟩ := hrec
      simp only [reached, Node.reached_eq, hbare]
      exact .skip rfl (hown.map _)
  | none =>
    have htype := Encode.type_stops { useUnknown := options.useUnknown }
      [.ofNode ⟨kind, constant, enumeration, annotations, loc⟩, .declaration name]
      ⟨kind, constant, enumeration, annotations, loc⟩
    have hreached : NamedType.reached ⟨name, kind, constant, enumeration, annotations, loc⟩ roots =
        Node.reached ⟨kind, constant, enumeration, annotations, loc⟩ := by
      match kind with
      | .and members =>
        have hmembers : heritage? roots members = none := hrec
        simp only [reached, hmembers]
      | .any | .null | .string | .number | .integer | .boolean | .object _ _ | .array _ | .tuple _ _ _ | .or _
      | .ref _ | .unsupported => rfl
    simp only [declaration, hrec, hreached]
    exact htype.map _

/-- The failure of a type, if it has one. -/
def NamedType.failure? (named : NamedType) (roots : List NamedType) : Option Error :=
  ((named.reached roots).find? Node.isRefused).map fun node =>
    .unsupported (.kind "unsupported") { loc := node.loc, path := [named.name] }

namespace Document

/-- Types are declared one after the other, up to the first that fails. -/
theorem declarations_stop (types roots : List NamedType) (options : WriteOptions) :
    match types.findSome? (·.failure? roots) with
    | some e => types.mapM (fun t => (t.declaration options roots).mapError (Error.inType t.name)) = .error e
    | none => ∃ placed, types.mapM (fun t => (t.declaration options roots).mapError (Error.inType t.name)) = .ok placed := by
  induction types with
  | nil => exact ⟨_, rfl⟩
  | cons t rest ih =>
    have ht := t.declaration_stops options roots
    rw [StopsIn] at ht
    rw [List.findSome?_cons, List.mapM_cons, NamedType.failure?]
    cases hf : (t.reached roots).find? Node.isRefused with
    | some node =>
      rw [hf] at ht
      rw [ht]
      rfl
    | none =>
      rw [hf] at ht
      obtain ⟨p, hp⟩ := ht
      rw [hp]
      simp only [Option.map_none]
      cases hrest : rest.findSome? (·.failure? roots) with
      | some e =>
        rw [hrest] at ih
        rw [ih]
        rfl
      | none =>
        rw [hrest] at ih
        obtain ⟨placed, hplaced⟩ := ih
        rw [hplaced]
        exact ⟨_, rfl⟩

/-- The failure of a document, if it has one. Nothing but the document decides it. -/
def failure? (d : Document) : Option Error :=
  if d.version ≠ currentVersion then some (.malformed (.version d.version) {})
  else d.types.findSome? (·.failure? d.types)

theorem emitWith_failure (d : Document) (print : Statement → String) (options : WriteOptions) :
    match d.failure? with
    | some e => d.emitWith print options = .error e
    | none => ∃ text, d.emitWith print options = .ok ⟨text, d.types.map NamedType.name, []⟩ := by
  rw [failure?, emitWith]
  by_cases hversion : d.version = currentVersion
  · rw [if_neg (by simp [hversion]), if_neg (by simp [hversion])]
    have hdecl := declarations_stop d.types d.types options
    cases hf : d.types.findSome? (·.failure? d.types) with
    | some e =>
      rw [hf] at hdecl
      rw [declarations, hdecl]
      rfl
    | none =>
      rw [hf] at hdecl
      obtain ⟨placed, hplaced⟩ := hdecl
      rw [declarations, hplaced]
      exact ⟨_, rfl⟩
  · rw [if_pos hversion, if_pos hversion]
    rfl

end Document

theorem NamedType.failure?_eq_none {named : NamedType} {roots : List NamedType} :
    named.failure? roots = none ↔ ∀ n ∈ named.reached roots, n.isRefused = false := by
  simp [failure?]

namespace Document

variable {d : Document} {print : Statement → String} {options : WriteOptions}

theorem failure?_eq (hversion : d.version = currentVersion) : d.failure? = d.types.findSome? (·.failure? d.types) :=
  if_neg (by simp [hversion])

theorem failure?_eq_none (hversion : d.version = currentVersion) :
    d.failure? = none ↔ ∀ t ∈ d.types, ∀ n ∈ t.reached d.types, n.isRefused = false := by
  simp only [failure?_eq hversion, List.findSome?_eq_none_iff, NamedType.failure?_eq_none]

/-- The failure of a document of the right version is that of a refused node. -/
theorem of_failure?_eq_some (hversion : d.version = currentVersion) {e : Error} (h : d.failure? = some e) :
    ∃ t ∈ d.types, ∃ n ∈ t.reached d.types, n.isRefused ∧
      e = .unsupported (.kind "unsupported") { loc := n.loc, path := [t.name] } := by
  rw [failure?_eq hversion] at h
  obtain ⟨t, ht, hfail⟩ := List.exists_of_findSome?_eq_some h
  obtain ⟨n, hn, rfl⟩ := Option.map_eq_some_iff.mp hfail
  exact ⟨t, ht, n, List.mem_of_find?_eq_some hn, List.find?_some hn, rfl⟩

/-- It is that of the first refused node of the first type that has one. -/
theorem failure?_first (hversion : d.version = currentVersion) {before after : List NamedType} {t : NamedType}
    {ns ms : List Node} {n : Node} (htypes : d.types = before ++ t :: after)
    (hbefore : ∀ s ∈ before, ∀ m ∈ s.reached d.types, m.isRefused = false)
    (hreached : t.reached d.types = ns ++ n :: ms) (hns : ∀ m ∈ ns, m.isRefused = false) (hn : n.isRefused) :
    d.failure? = some (.unsupported (.kind "unsupported") { loc := n.loc, path := [t.name] }) := by
  have hnone : before.findSome? (·.failure? d.types) = none :=
    List.findSome?_eq_none_iff.mpr fun s hs => NamedType.failure?_eq_none.mpr (hbefore s hs)
  have hfirst : (t.reached d.types).find? Node.isRefused = some n := by
    rw [hreached, List.find?_append, List.find?_eq_none.mpr fun m hm => by simp [hns m hm], Option.none_or,
      List.find?_cons_of_pos hn]
  have hfailure : t.failure? d.types = some (.unsupported (.kind "unsupported") { loc := n.loc, path := [t.name] }) := by
    rw [NamedType.failure?, hfirst]
    rfl
  rw [failure?_eq hversion]
  generalize d.types = roots at htypes hnone hfailure ⊢
  rw [htypes, List.findSome?_append, ← htypes, hnone, Option.none_or, List.findSome?_cons, hfailure]

theorem emitWith_error_iff {e : Error} : d.emitWith print options = .error e ↔ d.failure? = some e := by
  have h := d.emitWith_failure print options
  cases hf : d.failure? with
  | some e' => simp_all
  | none =>
    rw [hf] at h
    obtain ⟨text, h⟩ := h
    simp [h]

/-- A document is malformed where its version is not the one that is written. Any other is written under the names of
all its types, in their order, unless the writer comes to a node without a form; then the failure is the first such
node of the first type that has one, with the name of the type. What prints the statements makes no difference. -/
theorem emitWith_outcome (d : Document) (print : Statement → String) (options : WriteOptions) :
    ((∃ cause place, d.emitWith print options = .error (.malformed cause place)) ↔ d.version ≠ currentVersion) ∧
    (d.version = currentVersion →
      ((∃ e, d.emitWith print options = .error e) ↔ ∃ t ∈ d.types, ∃ n ∈ t.reached d.types, n.isRefused) ∧
      (∀ before t after ns n ms, d.types = before ++ t :: after →
        (∀ s ∈ before, ∀ m ∈ s.reached d.types, m.isRefused = false) →
        t.reached d.types = ns ++ n :: ms → (∀ m ∈ ns, m.isRefused = false) → n.isRefused →
        d.emitWith print options = .error (.unsupported (.kind "unsupported") { loc := n.loc, path := [t.name] })) ∧
      ((∀ t ∈ d.types, ∀ n ∈ t.reached d.types, n.isRefused = false) →
        ∃ text, d.emitWith print options = .ok ⟨text, d.types.map NamedType.name, []⟩)) ∧
    ∀ print' : Statement → String,
      (d.emitWith print' options).map (fun c => (c.converted, c.notConverted)) =
        (d.emitWith print options).map (fun c => (c.converted, c.notConverted)) := by
  have hwritten (print : Statement → String) (hnone : d.failure? = none) :
      ∃ text, d.emitWith print options = .ok ⟨text, d.types.map NamedType.name, []⟩ := by
    have h := d.emitWith_failure print options
    rwa [hnone] at h
  simp only [emitWith_error_iff]
  refine ⟨⟨?_, fun hversion => ⟨_, _, if_pos hversion⟩⟩, fun hversion => ⟨⟨?_, ?_⟩, ?_, ?_⟩, fun print' => ?_⟩
  · rintro ⟨cause, place, hf⟩ hversion
    obtain ⟨t, -, n, -, -, he⟩ := of_failure?_eq_some hversion hf
    cases he
  · rintro ⟨e, hf⟩
    obtain ⟨t, ht, n, hn, hrefused, -⟩ := of_failure?_eq_some hversion hf
    exact ⟨t, ht, n, hn, hrefused⟩
  · rintro ⟨t, ht, n, hn, hrefused⟩
    refine Option.ne_none_iff_exists'.mp fun hnone => ?_
    have := (failure?_eq_none hversion).mp hnone t ht n hn
    simp [hrefused] at this
  · intro before t after ns n ms htypes hbefore hreached hns hn
    exact failure?_first hversion htypes hbefore hreached hns hn
  · intro hnone
    exact hwritten print ((failure?_eq_none hversion).mpr hnone)
  · cases hf : d.failure? with
    | some e => rw [emitWith_error_iff.mpr hf, emitWith_error_iff.mpr hf]
    | none =>
      obtain ⟨text, h⟩ := hwritten print hf
      obtain ⟨text', h'⟩ := hwritten print' hf
      rw [h, h']
      rfl

/-- A constant stands in for what is in an array, and for nothing in the object of an intersection that extends another
type. -/
theorem emitWith_outcome_crate :
    let lost (start : Nat) : Node := { kind := .unsupported, loc := some ⟨start, start + 1⟩ }
    let types : List NamedType := [
      ⟨"Label", { kind := .array (lost 0), constant := some (.array []) }⟩,
      ⟨"Sized", .of (.object [] (.allowed false))⟩,
      ⟨"Crate", .of (.and [.of (.ref "Sized"), {
        kind := .object [("size", ⟨.of .number, true⟩), ("load", ⟨lost 5, false⟩)] (.node (lost 7))
        constant := some (.object []) }])⟩]
    (⟨currentVersion, types⟩ : Document).emitWith (fun _ => "") {} =
      .error (.unsupported (.kind "unsupported") { loc := some ⟨5, 6⟩, path := ["Crate"] }) := by
  intro lost types
  refine ((emitWith_outcome ⟨currentVersion, types⟩ (fun _ => "") {}).2.1 rfl).2.1
    (types.take 2) _ [] [.of .number] (lost 5) [lost 7] rfl ?_ rfl ?_ rfl
  · intro s hs m hm
    have htwo : s = types[0] ∨ s = types[1] := by simpa [types] using hs
    obtain rfl | rfl := htwo
    · obtain rfl := List.mem_singleton.mp hm
      rfl
    · obtain rfl := List.mem_singleton.mp hm
      rfl
  · intro m hm
    obtain rfl := List.mem_singleton.mp hm
    rfl

end Document

end TypeSchema
