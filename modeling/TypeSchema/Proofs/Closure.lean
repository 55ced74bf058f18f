import Mathlib.Logic.Relation
import TypeSchema.Proofs.References

namespace TypeSchema

mutual

theorem Node.references_iff (name : String) (node : Node) : node.references name ↔ name ∈ node.refs := by
  match node with
  | ⟨kind, c, e, a, l⟩ =>
    rw [Node.references, Node.refs_eq]
    match kind with
    | .or ms | .and ms => exact referencesAny_iff name ms
    | .array el => exact el.references_iff name
    | .tuple els more _ =>
      rw [Kind.references, Bool.or_eq_true, referencesAny_iff name els, more.references_iff name]
      exact List.mem_append.symm
    | .object ps more =>
      rw [Kind.references, Bool.or_eq_true, referencesProperty_iff name ps, more.references_iff name]
      exact List.mem_append.symm
    | .ref target =>
      rw [Kind.references, beq_iff_eq, List.mem_singleton]
      exact eq_comm
    | .any | .null | .string | .number | .integer | .boolean | .unsupported => simp [Kind.references]

theorem Additional.references_iff (name : String) (more : Additional) : more.references name ↔ name ∈ more.refs := by
  match more with
  | .allowed _ => simp [Additional.references]
  | .node node => simp [Additional.references, node.references_iff name]

theorem referencesAny_iff (name : String) (nodes : List Node) : referencesAny name nodes ↔ name ∈ refsOf nodes := by
  match nodes with
  | [] => simp [referencesAny]
  | node :: rest => simp [referencesAny, node.references_iff name, referencesAny_iff name rest]

theorem referencesProperty_iff (name : String) (properties : List (String × Property)) :
    referencesProperty name properties ↔ name ∈ refsOfProperties properties := by
  match properties with
  | [] => simp [referencesProperty]
  | (_, ⟨node, _⟩) :: rest =>
    simp [referencesProperty, node.references_iff name, referencesProperty_iff name rest]

end

/-- One type refers to another by name. -/
def NamedType.Refers (types : List NamedType) (a b : String) : Prop := ∃ t ∈ types, t.name = a ∧ b ∈ t.node.refs

/-- One type leads to another by a chain of references. -/
def NamedType.Reaches (types : List NamedType) : String → String → Prop := Relation.TransGen (Refers types)

theorem NamedType.Reaches.mono {types more : List NamedType} {a b : String} (h : Reaches types a b) :
    Reaches (types ++ more) a b := by
  have hle : Refers types ≤ Refers (types ++ more) := fun _ _ ⟨t, ht, hr⟩ => ⟨t, List.mem_append_left _ ht, hr⟩
  exact Relation.TransGen.mono hle a b h

namespace Convert

variable {cx : Context}

theorem mem_pending {p : Progress} {referenced : List String} {name : String} :
    name ∈ pending p referenced ↔ name ∈ referenced ∧ name ∉ p.done ∧ ∃ t ∈ p.types, name ∈ t.node.refs := by
  simp [pending, Node.references_iff]

/-- A round settles what is pending, and another one follows; where nothing is pending, it is the last one. -/
theorem rounds_succ_iff {n : Nat} {p p' : Progress} {log log' : Log} :
    Ends (rounds cx (n + 1) p) log p' log' ↔
      if (pending p log.referenced).isEmpty then p' = p ∧ log' = log
      else ∃ p₁ log₁, Ends (all cx { p with done := p.done ++ pending p log.referenced }
          ((pending p log.referenced).filterMap cx.table.get?)) log p₁ log₁ ∧ Ends (rounds cx n p₁) log₁ p' log' := by
  simp only [rounds, Ends.bind_iff, Ends.get_iff]
  constructor
  · rintro ⟨_, _, ⟨rfl, rfl⟩, h⟩
    split at h
    · next hnone =>
      rw [if_pos hnone]
      exact Ends.pure_iff.mp h
    · next hsome =>
      rw [if_neg hsome]
      exact Ends.bind_iff.mp h
  · intro h
    refine ⟨log, log, ⟨rfl, rfl⟩, ?_⟩
    split at h
    · next hnone =>
      rw [if_pos hnone]
      exact Ends.pure_iff.mpr h
    · next hsome =>
      rw [if_neg hsome]
      exact Ends.bind_iff.mpr h

section

variable {P : NamedType → Prop} {p p' : Progress} {log log' : Log}

/-- Whatever holds of the nodes of declarations holds of all types: it is kept by converting declarations in turn. -/
theorem forall_types_all {ds : List Declaration}
    (hdecoded : ∀ d ∈ ds, ∀ {node log log'}, Ends (cx.decodeTop d) log (some node) log' → P ⟨d.name, node⟩)
    (hp : ∀ t ∈ p.types, P t) (h : Ends (all cx p ds) log p' log') : ∀ t ∈ p'.types, P t := by
  induction ds generalizing p log with
  | nil =>
    obtain ⟨rfl, -⟩ := Ends.pure_iff.mp h
    exact hp
  | cons d rest ih =>
    rw [all, Ends.bind_iff] at h
    obtain ⟨node, log₁, hnode, h⟩ := h
    obtain ⟨hd, hrest⟩ := List.forall_mem_cons.mp hdecoded
    refine ih hrest ?_ h
    cases node with
    | none => exact hp
    | some node => exact List.forall_mem_append.mpr ⟨hp, List.forall_mem_singleton.mpr (hd hnode)⟩

variable (hdecoded : ∀ d ∈ cx.table.declarations, ∀ {node log log'},
  Ends (cx.decodeTop d) log (some node) log' → P ⟨d.name, node⟩)
include hdecoded

theorem forall_types_rounds {n : Nat} (hp : ∀ t ∈ p.types, P t) (h : Ends (rounds cx n p) log p' log') :
    ∀ t ∈ p'.types, P t := by
  induction n generalizing p log with
  | zero =>
    obtain ⟨rfl, -⟩ := Ends.pure_iff.mp h
    exact hp
  | succ n ih =>
    rw [rounds_succ_iff] at h
    split at h
    · obtain ⟨rfl, -⟩ := h
      exact hp
    · obtain ⟨p₁, log₁, hall, h⟩ := h
      refine ih (forall_types_all (fun d hd => ?_) (by exact hp) hall) h
      obtain ⟨name, -, hget⟩ := List.mem_filterMap.mp hd
      exact hdecoded d (Table.name_of_get? hget).2

theorem forall_types_progress {hoistedAway : List String} (h : Ends (progress cx hoistedAway) log p log') :
    ∀ t ∈ p.types, P t := by
  rw [progress, Ends.bind_iff] at h
  obtain ⟨p₀, log₀, hall, h⟩ := h
  have hfirst := forall_types_all (fun d hd => hdecoded d (List.mem_of_mem_filter hd))
    (fun t ht => absurd ht List.not_mem_nil) hall
  exact forall_types_rounds hdecoded (by exact hfirst) h

end

/-- Converting declarations in turn adds a type for each that is not generic, and a name for each that is. -/
theorem all_ends {p p' : Progress} {ds : List Declaration} {log log' : Log} (h : Ends (all cx p ds) log p' log') :
    ∃ types, p'.types = p.types ++ types ∧
      types.map NamedType.name = (ds.filter (!·.isGeneric)).map Declaration.name ∧
      p'.notConverted = p.notConverted ++ (ds.filter (·.isGeneric)).map Declaration.name ∧
      p'.done = p.done ∧ cx.Keeps log log' (refsOf (types.map NamedType.node)) := by
  induction ds generalizing p log with
  | nil =>
    obtain ⟨rfl, rfl⟩ := Ends.pure_iff.mp h
    exact ⟨[], by simp, by simp, by simp, rfl, .refl cx _⟩
  | cons d rest ih =>
    rw [all, Ends.bind_iff] at h
    obtain ⟨node, log₁, hn, h⟩ := h
    obtain ⟨hk, hgen⟩ := Context.decodeTop_keeps hn
    obtain ⟨types, ht, hnames, hnot, hdone, hkeeps⟩ := ih h
    cases node with
    | none =>
      have hg : d.isGeneric := hgen.mp rfl
      refine ⟨types, ht, by simpa [hg] using hnames, ?_, hdone, hk.trans hkeeps⟩
      simp [hnot, Progress.add, hg]
    | some node =>
      have hg : d.isGeneric = false := by simpa using hgen
      refine ⟨⟨d.name, node⟩ :: types, by simp [ht, Progress.add], by simp [hg, hnames], ?_, hdone, ?_⟩
      · simp [hnot, Progress.add, hg]
      · simpa using hk.trans hkeeps

/-- What holds after the first pass, which yields `base`, and after every round. -/
structure Closing (cx : Context) (base : List NamedType) (p : Progress) (log : Log) : Prop where
  sound : cx.Sound log
  admits : ∀ t ∈ p.types, ∀ r ∈ t.node.refs, cx.Admits log r
  nodup : (p.types.map NamedType.name).Nodup
  /-- Types are settled. -/
  done : ∀ t ∈ p.types, t.name ∈ p.done
  /-- What is settled is a type, or cannot be converted. -/
  settled : ∀ name ∈ p.done, name ∈ p.types.map NamedType.name ∨
    name ∈ p.notConverted ∧ ∀ d, cx.table.get? name = some d → d.isGeneric
  selected : ∀ d ∈ cx.table.declarations, isSelected cx.options d →
    d.name ∈ p.types.map NamedType.name ∨ d.name ∈ p.notConverted
  /-- What was added is a declaration that is not exported, can be converted and is reached. -/
  added : ∃ more, p.types = base ++ more ∧ ∀ t ∈ more,
    (∃ d, cx.table.get? t.name = some d ∧ d.exported = false ∧ d.isGeneric = false) ∧
      ∃ b ∈ base, NamedType.Reaches p.types b.name t.name

/-- How many declarations are not settled. -/
def remaining (cx : Context) (p : Progress) : Nat :=
  (cx.table.declarations.filter fun d => !p.done.contains d.name).length

theorem map_name_filterMap {log : Log} (hs : cx.Sound log) {names : List String} (h : names ⊆ log.referenced) :
    (names.filterMap cx.table.get?).map Declaration.name = names ∧
      ∀ d ∈ names.filterMap cx.table.get?, cx.table.get? d.name = some d ∧ d.exported = false := by
  induction names with
  | nil => simp
  | cons name rest ih =>
    obtain ⟨hi, hd⟩ := ih fun n hn => h (List.mem_cons_of_mem _ hn)
    obtain ⟨d, hget, he⟩ := hs.hidden name (h List.mem_cons_self)
    have hname := (cx.table.name_of_get? hget).1
    refine ⟨by simp [hget, hname, hi], fun e hm => ?_⟩
    simp only [List.filterMap_cons, hget, List.mem_cons] at hm
    rcases hm with rfl | hm
    · exact ⟨hname.symm ▸ hget, he⟩
    · exact hd e hm

/-- A round adds types of what was pending, and nothing that was pending is left: it is a type, or it is generic. -/
theorem round_ends {p p' : Progress} {log log' : Log} (hs : cx.Sound log)
    (h : Ends (all cx { p with done := p.done ++ pending p log.referenced }
      ((pending p log.referenced).filterMap cx.table.get?)) log p' log') :
    ∃ types, p'.types = p.types ++ types ∧ (types.map NamedType.name).Nodup ∧
      (∀ t ∈ types, t.name ∈ pending p log.referenced ∧
        ∃ d, cx.table.get? t.name = some d ∧ d.exported = false ∧ d.isGeneric = false) ∧
      (∀ name ∈ pending p log.referenced, name ∈ types.map NamedType.name ∨
        name ∈ p'.notConverted ∧ ∀ d, cx.table.get? name = some d → d.isGeneric) ∧
      p.notConverted ⊆ p'.notConverted ∧ p'.done = p.done ++ pending p log.referenced ∧
      cx.Keeps log log' (refsOf (types.map NamedType.node)) := by
  obtain ⟨types, ht, hnames, hnot, hdone, hkeeps⟩ := all_ends h
  obtain ⟨hmap, hhidden⟩ := map_name_filterMap hs fun n hn => (mem_pending.mp hn).1
  generalize (pending p log.referenced).filterMap cx.table.get? = ds at *
  refine ⟨types, ht, ?_, fun t hm => ?_, fun name hn => ?_, ?_, hdone, hkeeps⟩
  · rw [hnames]
    have hnodup : (ds.map Declaration.name).Nodup := hmap ▸ hs.nodup.filter _
    exact hnodup.sublist (List.filter_sublist.map _)
  · have htn : t.name ∈ (ds.filter (!·.isGeneric)).map Declaration.name := hnames ▸ List.mem_map_of_mem hm
    obtain ⟨d, hd, hn⟩ := List.mem_map.mp htn
    obtain ⟨hd, hg⟩ := List.mem_filter.mp hd
    obtain ⟨hget, he⟩ := hhidden d hd
    exact ⟨hmap ▸ hn ▸ List.mem_map_of_mem hd, d, hn ▸ hget, he, by simpa using hg⟩
  · rw [← hmap] at hn
    obtain ⟨d, hd, rfl⟩ := List.mem_map.mp hn
    cases hg : d.isGeneric with
    | false => exact .inl (hnames ▸ List.mem_map_of_mem (List.mem_filter.mpr ⟨hd, by simp [hg]⟩))
    | true =>
      refine .inr ⟨?_, fun e he => ?_⟩
      · rw [hnot]
        exact List.mem_append_right _ (List.mem_map_of_mem (List.mem_filter.mpr ⟨hd, hg⟩))
      · rw [(hhidden d hd).1, Option.some.injEq] at he
        exact he ▸ hg
  · rw [hnot]
    exact List.subset_append_left _ _

/-- What is pending is referred to by a type, so it is reached if all types are. -/
theorem reaches_of_pending {base more : List NamedType} {p : Progress} {referenced : List String} {name : String}
    (hmore : p.types = base ++ more) (hreach : ∀ t ∈ more, ∃ b ∈ base, NamedType.Reaches p.types b.name t.name)
    (hname : name ∈ pending p referenced) : ∃ b ∈ base, NamedType.Reaches p.types b.name name := by
  obtain ⟨-, -, u, hu, hr⟩ := mem_pending.mp hname
  have hstep : NamedType.Refers p.types u.name name := ⟨u, hu, rfl, hr⟩
  rw [hmore] at hu
  rcases List.mem_append.mp hu with hu | hu
  · exact ⟨u, hu, .single hstep⟩
  · obtain ⟨b, hb, hreach⟩ := hreach u hu
    exact ⟨b, hb, Relation.TransGen.tail hreach hstep⟩

/-- A round settles what is pending, and adds what can be converted. -/
theorem Closing.round {base : List NamedType} {p p' : Progress} {log log' : Log} (hc : Closing cx base p log)
    (h : Ends (all cx { p with done := p.done ++ pending p log.referenced }
      ((pending p log.referenced).filterMap cx.table.get?)) log p' log') :
    Closing cx base p' log' ∧ p'.done = p.done ++ pending p log.referenced := by
  obtain ⟨types, ht, hnew, hadded, hsettled, hnot, hdone, hkeeps⟩ := round_ends hc.sound h
  refine ⟨⟨hkeeps.sound hc.sound, ?_, ?_, ?_, ?_, ?_, ?_⟩, hdone⟩
  · intro t hm r hr
    rw [ht] at hm
    rcases List.mem_append.mp hm with hm | hm
    · exact (hc.admits t hm r hr).mono hkeeps.grows
    · exact hkeeps.admits r (mem_refsOf.mpr ⟨t.node, List.mem_map_of_mem hm, hr⟩)
  · rw [ht, List.map_append]
    refine List.nodup_append.mpr ⟨hc.nodup, hnew, ?_⟩
    rintro a ha b hb rfl
    obtain ⟨t, hm, rfl⟩ := List.mem_map.mp ha
    obtain ⟨u, hu, he⟩ := List.mem_map.mp hb
    exact (mem_pending.mp (he ▸ (hadded u hu).1)).2.1 (hc.done t hm)
  · intro t hm
    rw [hdone]
    rw [ht] at hm
    rcases List.mem_append.mp hm with hm | hm
    · exact List.mem_append_left _ (hc.done t hm)
    · exact List.mem_append_right _ (hadded t hm).1
  · intro name hn
    rw [hdone] at hn
    rw [ht, List.map_append, List.mem_append]
    rcases List.mem_append.mp hn with hn | hn
    · exact (hc.settled name hn).imp .inl fun ⟨hm, hg⟩ => ⟨hnot hm, hg⟩
    · exact (hsettled name hn).imp_left .inr
  · intro d hd hsel
    rw [ht, List.map_append, List.mem_append]
    exact (hc.selected d hd hsel).imp .inl (@hnot _)
  · obtain ⟨more, hmore, hreach⟩ := hc.added
    refine ⟨more ++ types, by rw [ht, hmore, List.append_assoc], fun t hm => ?_⟩
    rw [ht]
    rcases List.mem_append.mp hm with hm | hm
    · obtain ⟨hd, b, hb, hr⟩ := hreach t hm
      exact ⟨hd, b, hb, hr.mono⟩
    · obtain ⟨hp, hd⟩ := hadded t hm
      obtain ⟨b, hb, hr⟩ := reaches_of_pending hmore (fun u hu => (hreach u hu).2) hp
      exact ⟨hd, b, hb, hr.mono⟩

/-- Of some declarations, fewer are not settled when one more is. -/
theorem length_filter_lt {ds : List Declaration} {done done' : List String} {d : Declaration} (hd : d ∈ ds)
    (hn : d.name ∉ done) (hn' : d.name ∈ done') (hs : done ⊆ done') :
    (ds.filter (·.name ∉ done')).length < (ds.filter (·.name ∉ done)).length := by
  have heq : ds.filter (·.name ∉ done') = (ds.filter (·.name ∉ done)).filter (·.name ∉ done') := by
    rw [List.filter_filter]
    apply List.filter_congr
    intro e _
    -- what was settled still is
    by_cases h : e.name ∈ done
    · simp [h, hs h]
    · simp [h]
  rw [heq]
  apply List.length_filter_lt_length_iff_exists.mpr
  exact ⟨d, List.mem_filter.mpr ⟨hd, by simpa using hn⟩, by simpa using hn'⟩

theorem remaining_lt {p p' : Progress} {d : Declaration} (hd : d ∈ cx.table.declarations) (hn : d.name ∉ p.done)
    (hn' : d.name ∈ p'.done) (hs : p.done ⊆ p'.done) : remaining cx p' < remaining cx p := by
  unfold remaining
  simpa using length_filter_lt hd hn hn' hs

/-- Where something is pending, a declaration that is not exported is to be settled. -/
theorem exists_of_pending {p : Progress} {log : Log} (hs : cx.Sound log)
    (h : ¬(pending p log.referenced).isEmpty) : ∃ d ∈ cx.table.declarations,
      d.exported = false ∧ d.name ∈ pending p log.referenced ∧ d.name ∉ p.done := by
  obtain ⟨name, hname⟩ := List.exists_mem_of_ne_nil _ (by simpa using h)
  obtain ⟨hnoted, hnew, -⟩ := mem_pending.mp hname
  obtain ⟨d, hget, hhidden⟩ := hs.hidden name hnoted
  obtain ⟨rfl, hd⟩ := cx.table.name_of_get? hget
  exact ⟨d, hd, hhidden, hname, hnew⟩

/-- The rounds end with nothing pending. -/
theorem Closing.rounds {base : List NamedType} {n : Nat} {p p' : Progress} {log log' : Log}
    (hc : Closing cx base p log) (hn : remaining cx p < n) (h : Ends (rounds cx n p) log p' log') :
    Closing cx base p' log' ∧ pending p' log'.referenced = [] := by
  induction n generalizing p log with
  | zero => exact absurd hn (Nat.not_lt_zero _)
  | succ n ih =>
    rw [rounds_succ_iff] at h
    split at h
    · next he =>
      obtain ⟨rfl, rfl⟩ := h
      exact ⟨hc, by simpa using he⟩
    · next he =>
      obtain ⟨p₁, log₁, hall, h⟩ := h
      obtain ⟨hc₁, hdone⟩ := hc.round hall
      refine ih hc₁ ?_ h
      obtain ⟨d, hd, -, hname, hnew⟩ := exists_of_pending hc.sound he
      have hlt : remaining cx p₁ < remaining cx p :=
        remaining_lt hd hnew (by simp [hdone, hname]) (by simp [hdone])
      omega

/-- The first pass yields the selected declarations that can be converted; all that comes after is added to them. -/
theorem progress_ends {hoistedAway : List String} {p : Progress} {log : Log}
    (hnodup : (cx.table.declarations.map Declaration.name).Nodup) (h : Ends (progress cx hoistedAway) {} p log) :
    ∃ base, base.map NamedType.name =
        ((cx.table.declarations.filter (isSelected cx.options)).filter (!·.isGeneric)).map Declaration.name ∧
      Closing cx base p log ∧ pending p log.referenced = [] := by
  rw [progress, Ends.bind_iff] at h
  obtain ⟨p₀, log₀, hall, h⟩ := h
  obtain ⟨base, ht, hnames, hnot, -, hkeeps⟩ := all_ends hall
  rw [List.nil_append] at ht
  have hempty : cx.Sound {} := ⟨by simp, by simp⟩
  have hsub : List.Sublist (base.map NamedType.name) (cx.table.declarations.map Declaration.name) :=
    hnames ▸ (List.filter_sublist.trans List.filter_sublist).map _
  refine ⟨base, hnames, Closing.rounds ⟨hkeeps.sound hempty, ?_, ?_, ?_, ?_, ?_, [], ?_⟩ ?_ h⟩
  · intro t hm r hr
    exact hkeeps.admits r (mem_refsOf.mpr ⟨t.node, List.mem_map_of_mem (ht ▸ hm), hr⟩)
  · exact ht ▸ hnodup.sublist hsub
  · exact fun t hm => List.mem_map_of_mem hm
  · exact fun name hn => .inl hn
  · intro d hd hsel
    have hd := List.mem_filter.mpr ⟨hd, hsel⟩
    cases hg : d.isGeneric with
    | false =>
      refine .inl ?_
      rw [ht, hnames]
      exact List.mem_map_of_mem (List.mem_filter.mpr ⟨hd, by simp [hg]⟩)
    | true =>
      refine .inr ?_
      rw [hnot]
      exact List.mem_append_right _ (List.mem_map_of_mem (List.mem_filter.mpr ⟨hd, hg⟩))
  · simp [ht]
  · exact Nat.lt_succ_of_le (List.length_filter_le _ _)

end Convert

/-- A conversion that succeeds has gone through every pass, with no declaration that must be exported. -/
theorem SourceFile.convert_ends {file : SourceFile} {source : String} {options : ReadOptions}
    {conversion : Conversion Document} (h : (file.convert source options).result = .ok conversion) :
    let table := (Table.collect options.namespaces file).1
    (options.nonExported = .fail → ∀ d ∈ table.declarations, d.exported) ∧
    ∃ p log, Ends (Convert.progress { source := source.toList, options, table }
        (Table.collect options.namespaces file).2) {} p log ∧
      conversion = {
        data := ⟨Document.currentVersion, p.types⟩
        converted := p.types.map NamedType.name
        notConverted := p.notConverted } := by
  intro table
  simp only [convert] at h
  split at h
  · cases h
  · next hhidden =>
    refine ⟨fun hf d hd => ?_, ?_⟩
    · rw [if_pos hf, List.find?_eq_none] at hhidden
      simpa using hhidden d hd
    · rcases hrun : (Convert.progress { source := source.toList, options, table }
        (Table.collect options.namespaces file).2).run.run {} with ⟨result, log⟩
      simp only [table, hrun] at h
      cases result with
      | error e => cases h
      | ok p =>
        cases h
        exact ⟨p, log, hrun, rfl⟩

namespace Convert

variable {cx : Context} {base : List NamedType} {p : Progress} {log : Log}

/-- What is referred to and not exported is settled in the end: it is noted, and nothing is pending. -/
theorem Closing.done_of_refers (hc : Closing cx base p log) (hp : pending p log.referenced = [])
    (hi : cx.options.nonExported = .includeIfReferenced) {d : Declaration} (hd : cx.table.get? d.name = some d)
    (he : d.exported = false) {t : NamedType} (ht : t ∈ p.types) (hr : d.name ∈ t.node.refs) : d.name ∈ p.done := by
  have hadmits := hc.admits t ht _ hr d hd he
  have hnoted : d.name ∈ log.referenced := by simpa [hi] using hadmits
  refine Decidable.not_not.mp fun hn => ?_
  have hpending : d.name ∈ pending p log.referenced := mem_pending.mpr ⟨hnoted, hn, t, ht, hr⟩
  simp [hp] at hpending

/-- A reference to a declaration leads to a type, or to what is reported. -/
theorem Closing.closed (hc : Closing cx base p log) (hp : pending p log.referenced = [])
    (hi : cx.options.nonExported ≠ .ignore)
    (hf : cx.options.nonExported = .fail → ∀ d ∈ cx.table.declarations, d.exported) {t : NamedType} (ht : t ∈ p.types)
    {r : String} (hr : r ∈ t.node.refs) {d : Declaration} (hd : cx.table.get? r = some d) :
    r ∈ p.types.map NamedType.name ∨ r ∈ p.notConverted := by
  obtain ⟨rfl, hm⟩ := cx.table.name_of_get? hd
  by_cases hsel : isSelected cx.options d
  · exact hc.selected d hm hsel
  · simp only [isSelected, Bool.or_eq_true, not_or, Bool.not_eq_true, beq_iff_eq] at hsel
    have hadmits := hc.admits t ht _ hr d hd hsel.1
    cases hq : cx.options.nonExported with
    | ignore => exact absurd hq hi
    | included => exact absurd hq (by simpa using hsel.2)
    | fail => simp [hf hq d hm] at hsel
    | inline => simp [hq] at hadmits
    | includeIfReferenced => exact (hc.settled _ (hc.done_of_refers hp hq hd hsel.1 ht hr)).imp id And.left

/-- What a chain of references leads to, and can be converted, is a type. -/
theorem Closing.complete (hc : Closing cx base p log) (hp : pending p log.referenced = [])
    (hi : cx.options.nonExported = .includeIfReferenced)
    {d : Declaration} (hd : cx.table.get? d.name = some d) (he : d.exported = false) (hg : d.isGeneric = false)
    {root : String} (hr : NamedType.Reaches p.types root d.name) : d.name ∈ p.types.map NamedType.name := by
  obtain ⟨_, -, t, ht, -, hr⟩ := Relation.TransGen.tail'_iff.mp hr
  have hdone := hc.done_of_refers hp hi hd he ht hr
  refine (hc.settled _ hdone).resolve_right fun ⟨_, hgen⟩ => ?_
  simp [hgen d hd] at hg

end Convert

/-- The document of a file is closed under reference. Its types have distinct names; unless declarations that are not
exported are passed over, what a type refers to is a type, is reported as not converted, or is declared nowhere. Where
declarations are inlined, no reference to one that is not exported is left. Where they are included if they are
referenced, just those are added that a chain of references leads to; only generic ones cannot be converted. -/
theorem SourceFile.convert_closed (file : SourceFile) (source : String) (options : ReadOptions)
    {conversion : Conversion Document} (h : (file.convert source options).result = .ok conversion) :
    let declarations := (Table.collect options.namespaces file).1.declarations
    let types := conversion.data.types
    conversion.converted = types.map NamedType.name ∧ conversion.converted.Nodup ∧
    (options.nonExported ≠ .ignore → ∀ t ∈ types, ∀ r ∈ t.node.refs,
      r ∈ conversion.converted ∨ r ∈ conversion.notConverted ∨
        ∀ d ∈ visited options.namespaces [] file.statements, d.name ≠ r) ∧
    (options.nonExported = .inline → ∀ t ∈ types, ∀ r ∈ t.node.refs, ∀ d ∈ declarations, d.name = r → d.exported) ∧
    (options.nonExported = .includeIfReferenced →
      (∃ added, conversion.converted =
          ((declarations.filter (·.exported)).filter (!·.isGeneric)).map Declaration.name ++ added ∧
        ∀ name ∈ added, (∃ d ∈ declarations, d.name = name ∧ d.exported = false ∧ d.isGeneric = false) ∧
          ∃ root ∈ declarations, root.exported ∧ root.name ∈ conversion.converted ∧
            NamedType.Reaches types root.name name) ∧
      ∀ root ∈ declarations, root.exported → root.name ∈ conversion.converted →
        ∀ d ∈ declarations, d.exported = false → d.isGeneric = false →
          NamedType.Reaches types root.name d.name → conversion.converted.count d.name = 1) := by
  intro declarations types
  obtain ⟨hfail, p, log, hends, rfl⟩ := convert_ends h
  have hnodup := Table.nodup_collect options.namespaces file
  obtain ⟨base, hbase, hc, hp⟩ := Convert.progress_ends hnodup hends
  have hget : ∀ d ∈ declarations, (Table.collect options.namespaces file).1.get? d.name = some d :=
    fun d hd => Table.get?_of_mem hnodup hd
  refine ⟨rfl, hc.nodup, fun hi t ht r hr => ?_, fun hi t ht r hr d hd hn => ?_, fun hi => ⟨?_, ?_⟩⟩
  · cases hd : (Table.collect options.namespaces file).1.get? r with
    | some d => exact (hc.closed hp hi hfail ht hr hd).imp id .inl
    | none =>
      refine .inr (.inr fun d hd' hn => ?_)
      exact Table.get?_eq_none.mp hd (Table.mem_names_collect.mpr (hn ▸ List.mem_map_of_mem hd'))
  · cases he : d.exported with
    | true => rfl
    | false =>
      have := hc.admits t ht r hr d (hn ▸ hget d hd) he
      simp [hi] at this
  · obtain ⟨more, hmore, hreach⟩ := hc.added
    have hsel : declarations.filter (Convert.isSelected options) = declarations.filter (·.exported) :=
      List.filter_congr fun d _ => by simp [Convert.isSelected, hi]
    have hbase' : base.map NamedType.name =
        ((declarations.filter (·.exported)).filter (!·.isGeneric)).map Declaration.name := by
      rw [hbase, ← hsel]
    refine ⟨more.map NamedType.name, by rw [hmore, List.map_append, hbase'], fun name hn => ?_⟩
    obtain ⟨t, ht, rfl⟩ := List.mem_map.mp hn
    obtain ⟨⟨d, hd, he, hg⟩, b, hb, hr⟩ := hreach t ht
    obtain ⟨hname, hmem⟩ := Table.name_of_get? hd
    refine ⟨⟨d, hmem, hname, he, hg⟩, ?_⟩
    have hb' : b.name ∈ base.map NamedType.name := List.mem_map_of_mem hb
    rw [hbase'] at hb'
    obtain ⟨root, hroot, hbn⟩ := List.mem_map.mp hb'
    obtain ⟨hroot, -⟩ := List.mem_filter.mp hroot
    obtain ⟨hroot, hexp⟩ := List.mem_filter.mp hroot
    refine ⟨root, hroot, hexp, ?_, hbn ▸ hr⟩
    rw [hbn]
    exact List.mem_map_of_mem (hmore ▸ List.mem_append_left _ hb)
  · intro root _ _ _ d hd he hg hr
    exact List.count_eq_one_of_mem hc.nodup (hc.complete hp hi (hget d hd) he hg hr)

/-- What an exported alias refers to comes after it, though it is not exported. -/
theorem SourceFile.convert_closed_alias :
    let file : SourceFile := ⟨[
      .typeAlias { name := "Inner", value := .keyword .string },
      .typeAlias { name := "Outer", exported := true, value := .of (.array (.reference "Inner")) }]⟩
    ∃ conversion, (file.convert "" {}).result = .ok conversion ∧ conversion.converted = ["Outer", "Inner"] ∧
      conversion.converted.Nodup ∧ ∀ t ∈ conversion.data.types, ∀ r ∈ t.node.refs,
        r ∈ conversion.converted ∨ r ∈ conversion.notConverted ∨ ∀ d ∈ visited .ignore [] file.statements, d.name ≠ r := by
  intro file
  let outer : Node := {
    kind := .array { kind := .ref "Inner", annotations := { title := some "Outer.[]" } }
    annotations := { title := some "Outer" } }
  let inner : Node := { kind := .string, annotations := { title := some "Inner" } }
  have h : (file.convert "" {}).result =
      .ok ⟨⟨Document.currentVersion, [⟨"Outer", outer⟩, ⟨"Inner", inner⟩]⟩, ["Outer", "Inner"], []⟩ := by
    rfl
  obtain ⟨-, hnodup, hclosed, -⟩ := file.convert_closed "" {} h
  exact ⟨_, h, rfl, hnodup, hclosed (by decide)⟩

end TypeSchema
