import TypeSchema.Proofs.RoundTrip

namespace TypeSchema

namespace NamespaceSplit

/-- What is put between the parts of a name. -/
def joint : NamespaceSplit → Char
  | underscore => '_'
  | ignore | dot | all => '.'

/-- The rest of a name whose separators are counted as one joint, and as none at the end of the name. The flag
says that there were separators before the rest. -/
def evenedFrom (split : NamespaceSplit) : Bool → List Char → List Char
  | _, [] => []
  | waiting, c :: rest =>
    if split.isSeparator c then split.evenedFrom true rest
    else if waiting then split.joint :: c :: split.evenedFrom false rest
    else c :: split.evenedFrom false rest

/-- A name with one joint for every run of separators inside it, and with none at its ends. -/
def evened (split : NamespaceSplit) (name : String) : List Char :=
  split.evenedFrom false (name.toList.dropWhile split.isSeparator)

/-- A name says something beside its separators. -/
def Names (split : NamespaceSplit) (name : String) : Prop := ∃ c ∈ name.toList, split.isSeparator c = false

variable {split : NamespaceSplit}

theorem isSeparator_ignore (c : Char) : ignore.isSeparator c = false := rfl

/-- A name that is not split stays as it is. -/
theorem evened_ignore (name : String) : ignore.evened name = name.toList := by
  have hfrom (s : List Char) : ignore.evenedFrom false s = s := by
    induction s with
    | nil => rfl
    | cons c rest ih => simp [evenedFrom, isSeparator_ignore, ih]
  rw [evened, hfrom]
  cases name.toList <;> simp [isSeparator_ignore]

theorem isSeparator_joint (h : split ≠ .ignore) : split.isSeparator split.joint = true := by
  cases split with
  | ignore => exact absurd rfl h
  | dot => rfl
  | underscore => rfl
  | all => rfl

/-- Pieces are split at every separator. -/
theorem pieces_append {c : Char} (hc : split.isSeparator c = true) (s t : List Char) :
    split.pieces (s ++ c :: t) = split.pieces s ++ split.pieces t := by
  rw [pieces, pieces, pieces, List.splitOnP_append_cons s t hc, List.filter_append]

@[simp] theorem pieces_nil : split.pieces [] = [] := rfl

theorem pieces_separator {c : Char} (hc : split.isSeparator c = true) (s : List Char) :
    split.pieces (c :: s) = split.pieces s := by
  simpa using pieces_append hc [] s

/-- A character of a piece stands in front of whatever is split off behind it. -/
theorem exists_splitOnP_cons {c : Char} (hc : split.isSeparator c = false) (s : List Char) :
    ∃ first rest, s.splitOnP split.isSeparator = first :: rest ∧
      split.pieces (c :: s) = (c :: first) :: rest.filter (!·.isEmpty) := by
  obtain ⟨first, rest, h⟩ := List.exists_cons_of_ne_nil (List.splitOnP_ne_nil split.isSeparator s)
  refine ⟨first, rest, h, ?_⟩
  rw [pieces, List.splitOnP_cons_eq_if_modifyHead, if_neg (by simp [hc]), h, List.modifyHead_cons]
  simp

theorem pieces_dropWhile (s : List Char) :
    split.pieces (s.dropWhile split.isSeparator) = split.pieces s := by
  induction s with
  | nil => rfl
  | cons c s ih =>
    rw [List.dropWhile_cons]
    split
    case isTrue hc => rw [ih, pieces_separator hc]
    case isFalse => rfl

/-- What both ways of evening the rest of a name make of its parts. -/
theorem evenedFrom_eq (s : List Char) :
    split.evenedFrom true s = (split.pieces s).flatMap (split.joint :: ·) ∧
      ∀ first rest, s.splitOnP split.isSeparator = first :: rest →
        split.evenedFrom false s = first ++ (rest.filter (!·.isEmpty)).flatMap (split.joint :: ·) := by
  induction s with
  | nil =>
    refine ⟨rfl, fun first rest h => ?_⟩
    cases h
    rfl
  | cons c s ih =>
    cases hc : split.isSeparator c with
    | true =>
      refine ⟨by simp [evenedFrom, hc, ih.1, pieces_separator hc], fun first rest h => ?_⟩
      simp only [List.splitOnP_cons_eq_if_modifyHead, hc, if_true, List.cons.injEq] at h
      obtain ⟨rfl, rfl⟩ := h
      simp [evenedFrom, hc, ih.1, pieces]
    | false =>
      obtain ⟨first, rest, hs, hp⟩ := exists_splitOnP_cons hc s
      have hrest := ih.2 first rest hs
      refine ⟨by simp [evenedFrom, hc, hp, hrest], fun first' rest' h => ?_⟩
      rw [List.splitOnP_cons_eq_if_modifyHead, if_neg (by simp [hc]), hs, List.modifyHead_cons] at h
      cases h
      simp [evenedFrom, hc, hrest]

theorem joinWith_cons_eq_flatMap (c : Char) (s : List Char) (rest : List (List Char)) :
    joinWith [c] (s :: rest) = s ++ rest.flatMap (c :: ·) := by
  induction rest generalizing s with
  | nil => simp
  | cons t rest ih => rw [joinWith_cons _ _ (by simp), ih]; simp

/-- An evened name is its pieces with a joint between them. -/
theorem evened_eq (name : String) : split.evened name = joinWith [split.joint] (split.pieces name.toList) := by
  rw [evened, ← pieces_dropWhile name.toList]
  cases hs : name.toList.dropWhile split.isSeparator with
  | nil => rfl
  | cons c s =>
    have hc : split.isSeparator c = false := by
      have := List.head?_dropWhile_not split.isSeparator name.toList
      simpa [hs] using this
    obtain ⟨first, rest, hrest, hp⟩ := exists_splitOnP_cons hc s
    rw [hp, joinWith_cons_eq_flatMap]
    simp [evenedFrom, hc, (evenedFrom_eq s).2 first rest hrest]

theorem not_isSeparator_of_mem_pieces {s p : List Char} (h : p ∈ split.pieces s) :
    p ≠ [] ∧ ∀ c ∈ p, split.isSeparator c = false := by
  obtain ⟨hp, hne⟩ := List.mem_filter.mp h
  refine ⟨by simpa using hne, fun c hc => ?_⟩
  clear h hne
  induction s generalizing p with
  | nil =>
    simp only [List.splitOnP_nil, List.mem_singleton] at hp
    simp [hp] at hc
  | cons d s ih =>
    obtain ⟨first, rest, hs⟩ := List.exists_cons_of_ne_nil (List.splitOnP_ne_nil split.isSeparator s)
    rw [hs] at ih
    rw [List.splitOnP_cons_eq_if_modifyHead, hs] at hp
    split at hp
    case isTrue =>
      rcases List.mem_cons.mp hp with rfl | hp
      · simp at hc
      · exact ih hp hc
    case isFalse hd =>
      rw [List.modifyHead_cons] at hp
      rcases List.mem_cons.mp hp with rfl | hp
      · rcases List.mem_cons.mp hc with rfl | hc
        · simpa using hd
        · exact ih (by simp) hc
      · exact ih (by simp [hp]) hc

/-- A text without separators is one piece. -/
theorem pieces_of_forall {p : List Char} (hne : p ≠ []) (h : ∀ c ∈ p, split.isSeparator c = false) :
    split.pieces p = [p] := by
  rw [pieces, List.splitOnP_eq_singleton fun c hc => by simpa using h c hc]
  simp [hne]

/-- Pieces that are joined come apart again. -/
theorem pieces_joinWith (hsplit : split ≠ .ignore) {ps : List (List Char)}
    (h : ∀ p ∈ ps, p ≠ [] ∧ ∀ c ∈ p, split.isSeparator c = false) :
    split.pieces (joinWith [split.joint] ps) = ps := by
  induction ps with
  | nil => rfl
  | cons p ps ih =>
    obtain ⟨hne, hp⟩ := h p List.mem_cons_self
    by_cases hps : ps = []
    · rw [hps, joinWith_singleton, pieces_of_forall hne hp]
    · rw [joinWith_cons _ _ hps, List.append_assoc, List.singleton_append,
        pieces_append (isSeparator_joint hsplit), pieces_of_forall hne hp,
        ih fun q hq => h q (List.mem_cons_of_mem _ hq), List.singleton_append]

/-- Evening a name keeps its pieces, and nothing else of it. -/
theorem evened_eq_iff (s t : String) :
    split.evened s = split.evened t ↔ split.pieces s.toList = split.pieces t.toList := by
  constructor
  · intro h
    by_cases hsplit : split = .ignore
    · subst hsplit
      have hself (name : String) : ignore.pieces (ignore.evened name) = ignore.pieces name.toList := by
        rw [evened_eq]
        by_cases hname : name.toList = []
        · rw [hname]; rfl
        · rw [pieces_of_forall hname fun c _ => isSeparator_ignore c, joinWith_singleton,
            pieces_of_forall hname fun c _ => isSeparator_ignore c]
      rw [← hself s, ← hself t, h]
    · have hself (name : String) : split.pieces (split.evened name) = split.pieces name.toList := by
        rw [evened_eq, pieces_joinWith hsplit fun p hp => not_isSeparator_of_mem_pieces hp]
      rw [← hself s, ← hself t, h]
  · intro h
    rw [evened_eq, evened_eq, h]

theorem Names.pieces_ne_nil {name : String} (h : split.Names name) : split.pieces name.toList ≠ [] := by
  obtain ⟨c, hc, hsep⟩ := h
  obtain ⟨s, t, hst⟩ := List.append_of_mem hc
  rw [hst]
  clear hst hc
  induction s with
  | nil =>
    obtain ⟨first, rest, -, hp⟩ := exists_splitOnP_cons hsep t
    simp [hp]
  | cons d s ih =>
    cases hd : split.isSeparator d with
    | true => rwa [List.cons_append, pieces_separator hd]
    | false =>
      obtain ⟨first, rest, -, hp⟩ := exists_splitOnP_cons hd (s ++ c :: t)
      simp [hp]

/-- A name that says something is its namespaces and its local part together. -/
theorem apply_append {name : String} (h : split.Names name) :
    (split.apply name).1 ++ [(split.apply name).2] = (split.pieces name.toList).map String.ofList := by
  have hne : (split.pieces name.toList).map String.ofList ≠ [] := by simpa using h.pieces_ne_nil
  rw [apply, List.getLast?_eq_some_getLast hne]
  exact List.dropLast_append_getLast hne

/-- Names that say something are taken apart alike where they are evened alike. -/
theorem apply_eq_iff {s t : String} (hs : split.Names s) (ht : split.Names t) :
    split.apply s = split.apply t ↔ split.evened s = split.evened t := by
  rw [evened_eq_iff, ← (List.map_injective_iff.mpr fun _ _ => String.ofList_injective).eq_iff, ← apply_append hs,
    ← apply_append ht]
  constructor
  · intro h
    rw [h]
  · intro h
    obtain ⟨hnamespaces, hlocal⟩ := List.append_inj' h rfl
    exact Prod.ext hnamespaces (List.cons.inj hlocal).1

end NamespaceSplit

/-- Two types are declared in one place where evening makes one name of theirs. -/
theorem NamedType.place_eq_iff {s t : NamedType} {options : WriteOptions} {roots : List NamedType} {p q : Placed}
    (hs : options.namespaces.Names s.name) (ht : options.namespaces.Names t.name)
    (hp : s.declaration options roots = .ok p) (hq : t.declaration options roots = .ok q) :
    p.place = q.place ↔ options.namespaces.evened s.name = options.namespaces.evened t.name := by
  rw [declaration_place hp, declaration_place hq, ← NamespaceSplit.apply_eq_iff hs ht]
  simp [Prod.ext_iff]

/-- The places of a document are distinct as far as its evened names are. -/
theorem Document.nodup_places_iff {types roots : List NamedType} {options : WriteOptions} {placed : List Placed}
    (hnames : ∀ t ∈ types, options.namespaces.Names t.name)
    (h : List.Forall₂ (fun named p => named.declaration options roots = .ok p) types placed) :
    (placed.map Placed.place).Nodup ↔ (types.map fun t => options.namespaces.evened t.name).Nodup := by
  induction h with
  | nil => simp
  | @cons t p types placed hp h ih =>
    have hmem : p.place ∈ placed.map Placed.place ↔
        options.namespaces.evened t.name ∈ types.map fun t => options.namespaces.evened t.name := by
      simp only [List.mem_map]
      constructor
      · rintro ⟨q, hq, hpq⟩
        obtain ⟨s, hs, hsq⟩ := exists_of_forall₂_of_mem h hq
        exact ⟨s, hs, (NamedType.place_eq_iff (hnames s (by simp [hs])) (hnames t (by simp)) hsq hp).mp hpq⟩
      · rintro ⟨s, hs, hst⟩
        obtain ⟨q, hq, hsq⟩ := exists_of_forall₂_of_mem h.flip hs
        exact ⟨q, hq, (NamedType.place_eq_iff (hnames s (by simp [hs])) (hnames t (by simp)) hsq hp).mpr hst⟩
    simp only [List.map_cons, List.nodup_cons, hmem, ih fun s hs => hnames s (List.mem_cons_of_mem _ hs)]

/-- Every type whose name says something has a declaration of its own where names stay distinct without the
separators that count for nothing: those at the ends, all but one of a run, and of which kind a separator is.
That is so where distinct names are even from the start, as all of them are that are not split. -/
theorem Document.places_distinct (d : Document) (options : WriteOptions)
    (hnames : ∀ t ∈ d.types, options.namespaces.Names t.name) :
    (∀ s ∈ d.types, ∀ t ∈ d.types, ∀ p q, s.declaration options d.types = .ok p →
      t.declaration options d.types = .ok q →
      (p.place = q.place ↔ options.namespaces.evened s.name = options.namespaces.evened t.name)) ∧
    ∀ placed, d.declarations options = .ok placed →
      ((placed.map Placed.place).Nodup ↔ (d.types.map fun t => options.namespaces.evened t.name).Nodup) ∧
      ((d.types.map NamedType.name).Nodup →
        (options.namespaces = .ignore ∨ ∀ t ∈ d.types, options.namespaces.evened t.name = t.name.toList) →
        (placed.map Placed.place).Nodup) := by
  refine ⟨fun s hs t ht p q hp hq => NamedType.place_eq_iff (hnames s hs) (hnames t ht) hp hq, fun placed h => ?_⟩
  have hiff := nodup_places_iff hnames (declarations_ok h)
  refine ⟨hiff, fun hdistinct heven => hiff.mpr ?_⟩
  have heven : ∀ t ∈ d.types, options.namespaces.evened t.name = t.name.toList := by
    rcases heven with hignore | heven
    · rw [hignore]
      exact fun t _ => NamespaceSplit.evened_ignore t.name
    · exact heven
  rw [List.map_congr_left heven]
  have : (d.types.map fun t => t.name.toList) = (d.types.map NamedType.name).map String.toList := by simp
  rw [this]
  exact hdistinct.map fun _ _ => String.toList_inj.mp

/-- Even names stay apart, also where one leads into the other. -/
theorem Document.places_distinct_shelf :
    let types : List NamedType := [⟨"Shop", .of .string⟩, ⟨"Shop.Item", .of .number⟩, ⟨"Shop_Item", .of .null⟩]
    ∃ placed, (⟨currentVersion, types⟩ : Document).declarations { namespaces := .dot } = .ok placed ∧
      (placed.map Placed.place).Nodup ∧
      placed.map Placed.place = [([], some "Shop"), (["Shop"], some "Item"), ([], some "Shop_Item")] := by
  intro types
  obtain ⟨placed, hplaced⟩ : ∃ placed,
      (⟨currentVersion, types⟩ : Document).declarations { namespaces := .dot } = .ok placed := ⟨_, rfl⟩
  refine ⟨placed, hplaced, ?_, ?_⟩
  · have hnames : ∀ t ∈ types, NamespaceSplit.dot.Names t.name := by
      simp only [types, NamespaceSplit.Names, List.forall_mem_cons]
      exact ⟨⟨'S', by decide⟩, ⟨'S', by decide⟩, ⟨'S', by decide⟩, by simp⟩
    exact ((places_distinct ⟨currentVersion, types⟩ { namespaces := .dot } hnames).2 placed hplaced).2
      (by decide) (.inr (by decide))
  · cases hplaced
    rfl

/-- Two names may be told apart by a separator that is not kept, and by the kind of separator: then both types are
declared in one place. -/
theorem Document.places_shared :
    let document (first second : String) : Document := ⟨currentVersion, [⟨first, .of .string⟩, ⟨second, .of .number⟩]⟩
    let shared (d : Document) (split : NamespaceSplit) : Prop :=
      (d.types.map NamedType.name).Nodup ∧ (∀ t ∈ d.types, split.Names t.name) ∧
      ∃ placed, d.declarations { namespaces := split } = .ok placed ∧ ¬(placed.map Placed.place).Nodup
    shared (document "B" "_B") .underscore ∧ shared (document "A.B" "A_B") .all := by
  intro document shared
  constructor
  · refine ⟨by decide, ?_, _, rfl, by decide⟩
    simp only [document, NamespaceSplit.Names, List.forall_mem_cons]
    exact ⟨⟨'B', by decide⟩, ⟨'B', by decide⟩, by simp⟩
  · refine ⟨by decide, ?_, _, rfl, by decide⟩
    simp only [document, NamespaceSplit.Names, List.forall_mem_cons]
    exact ⟨⟨'B', by decide⟩, ⟨'B', by decide⟩, by simp⟩

end TypeSchema
