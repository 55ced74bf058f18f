import TypeSchema.Proofs.Independence

namespace TypeSchema

/-- The same declarations, each of a name of its own, in another order. -/
structure Table.Rearranged (table table' : Table) : Prop where
  policy : table'.policy = table.policy
  perm : table'.declarations.Perm table.declarations
  nodup : (table.declarations.map Declaration.name).Nodup

namespace Table.Rearranged

variable {table table' : Table}

theorem nodup' (h : table.Rearranged table') : (table'.declarations.map Declaration.name).Nodup :=
  (h.perm.map _).nodup_iff.mpr h.nodup

theorem get?_eq (h : table.Rearranged table') : table'.get? = table.get? := by
  funext name
  cases hget : table.get? name with
  | none =>
    rw [get?_eq_none] at hget ⊢
    rwa [(h.perm.map _).mem_iff]
  | some d =>
    obtain ⟨rfl, hd⟩ := table.name_of_get? hget
    exact get?_of_mem h.nodup' (h.perm.mem_iff.mpr hd)

theorem resolve?_eq (h : table.Rearranged table') : table'.resolve? = table.resolve? := by
  funext scope name
  rw [resolve?, resolve?, h.policy, h.get?_eq]

end Table.Rearranged

section

variable (table : Table)

/-- The ways into a declaration are the same with each rearranged table. -/
structure Beyond.SameAcross (beyond : Beyond) : Prop where
  inline : ∀ (cx : Context) d span, (Parallel.same { t // table.Rearranged t }).Holds fun t =>
    beyond.inline (cx.across t.1) d span
  expand : ∀ (cx : Context) d span, (Parallel.same { t // table.Rearranged t }).Holds fun t =>
    beyond.expand (cx.across t.1) d span

variable {table}

theorem Beyond.SameAcross.steps {beyond : Beyond} (h : beyond.SameAcross table) (cx : Context) :
    Decode.Steps (.same { t // table.Rearranged t }) (fun _ => beyond) fun t => cx.across t.1 := by
  change Decode.Steps (.same { t // table.Rearranged t }) (fun _ => beyond) fun t => (cx.across table).across t.1
  exact .same (fun t => t.2.get?_eq) (fun t => t.2.resolve?_eq) (fun d _ => h.inline cx d) fun d _ => h.expand cx d

theorem Beyond.within_sameAcross (depth : Nat) : (within depth).SameAcross table := by
  induction depth with
  | zero => exact ⟨fun _ _ _ _ _ => rfl, fun _ _ _ _ _ => rfl⟩
  | succ depth ih =>
    refine ⟨fun cx d span => ?_, fun cx d span => ?_⟩ <;> by_cases hd : d.name ∈ cx.entered <;>
      simp only [within, Context.across_entered, hd, if_true, if_false]
    · exact fun _ _ => rfl
    · exact Decode.declaration_holds (ih.steps (cx.inside d)) d
    · exact fun _ _ => rfl
    · exact Decode.shape_holds (ih.steps (cx.inside d)) d

/-- What a declaration comes to does not depend on the order of the table. -/
theorem Context.decodeTop_across {cx : Context} {table' : Table} (h : cx.table.Rearranged table') (d : Declaration) :
    (cx.across table').decodeTop d = cx.decodeTop d := by
  have hbeyond : (Beyond.within cx.table.declarations.length).SameAcross cx.table := Beyond.within_sameAcross _
  have hsame := Decode.declaration_holds (hbeyond.steps { cx with path := [d.name], scope := d.scope, entered := [] }) d
  unfold decodeTop
  rw [across_table, h.perm.length_eq]
  exact hsame ⟨table', h⟩ ⟨cx.table, ⟨rfl, .refl _, h.nodup⟩⟩

end

/-- Logs that hold the same. -/
structure Log.Similar (log log' : Log) : Prop where
  warnings : log'.warnings.Perm log.warnings
  referenced : ∀ name, name ∈ log'.referenced ↔ name ∈ log.referenced

/-- Conversions that have come equally far. -/
structure Progress.Similar (p p' : Progress) : Prop where
  types : p'.types.Perm p.types
  notConverted : p'.notConverted.Perm p.notConverted
  done : ∀ name, name ∈ p'.done ↔ name ∈ p.done

theorem Log.Similar.append {log log' more more' : Log} (h : log.Similar log') (hmore : more.Similar more') :
    (log ++ more).Similar (log' ++ more') where
  warnings := h.warnings.append hmore.warnings
  referenced name := by
    rw [mem_referenced_append, mem_referenced_append, h.referenced, hmore.referenced]

namespace Context

variable {cx : Context} {table' : Table} (h : cx.table.Rearranged table')
include h

theorem alone_across (d : Declaration) : (cx.across table').alone d = cx.alone d := by
  rw [alone, alone, decodeTop_across h]

theorem type?_across : (cx.across table').type? = cx.type? := by
  funext d
  rw [type?, type?, alone_across h]

theorem leftOut?_across : (cx.across table').leftOut? = cx.leftOut? := by
  funext d
  rw [leftOut?, leftOut?, alone_across h]

theorem decodes_across (d : Declaration) : (cx.across table').Decodes d ↔ cx.Decodes d := by
  rw [Decodes, Decodes, alone_across h]

theorem notes_across {ds ds' : List Declaration} (hds : ds'.Perm ds) :
    (cx.notes ds).Similar ((cx.across table').notes ds') where
  warnings := by
    simp only [warnings_notes, alone_across h]
    exact hds.flatMap_right _
  referenced name := by
    simp only [mem_referenced_notes, alone_across h, hds.mem_iff]

end Context

theorem Progress.Similar.plus {cx : Context} {table' : Table} (h : cx.table.Rearranged table') {p p' : Progress}
    (hp : p.Similar p') {ds ds' : List Declaration} (hds : ds'.Perm ds) :
    (p.plus cx ds).Similar (p'.plus (cx.across table') ds') := by
  unfold Progress.plus
  rw [Context.type?_across h, Context.leftOut?_across h]
  exact ⟨hp.types.append (hds.filterMap _), hp.notConverted.append (hds.filterMap _), hp.done⟩

/-- Conversions that have come equally far with the table in two orders. -/
structure Context.Abreast (cx : Context) (table' : Table) (p p' : Progress) (log log' : Log) : Prop where
  far : p.Similar p'
  noted : log.Similar log'
  sound : cx.Sound log
  sound' : (cx.across table').Sound log'

/-- Conversions that settle the same names stay abreast. -/
theorem Context.Abreast.settle {cx : Context} {table' : Table} {p p' : Progress} {log log' : Log}
    (h : cx.Abreast table' p p' log log') {done done' : List String} (hdone : ∀ name, name ∈ done' ↔ name ∈ done) :
    cx.Abreast table' { p with done } { p' with done := done' } log log' :=
  ⟨⟨h.far.types, h.far.notConverted, hdone⟩, h.noted, h.sound, h.sound'⟩

namespace Convert

variable {cx : Context} {table' : Table} {p p' q : Progress} {log log' l : Log}

/-- What is pending is the same, in another order. -/
theorem pending_similar (h : cx.Abreast table' p p' log log') :
    (pending p' log'.referenced).Perm (pending p log.referenced) := by
  apply (List.perm_ext_iff_of_nodup (h.sound'.nodup.filter _) (h.sound.nodup.filter _)).mpr
  intro name
  change name ∈ pending p' log'.referenced ↔ name ∈ pending p log.referenced
  simp only [mem_pending, h.noted.referenced, h.far.done, h.far.types.mem_iff]

/-- Declarations can be converted in another order, and come to the same. -/
theorem all_across (ht : cx.table.Rearranged table') (h : cx.Abreast table' p p' log log') {ds ds' : List Declaration}
    (hds : ds'.Perm ds) (hends : Ends (all cx p ds) log q l) :
    ∃ q' l', Ends (all (cx.across table') p' ds') log' q' l' ∧ cx.Abreast table' q q' l l' := by
  obtain ⟨_, -, -, -, -, hkeeps⟩ := all_ends hends
  obtain ⟨hdec, rfl, rfl⟩ := all_ends_iff.mp hends
  have hdec' : ∀ d ∈ ds', (cx.across table').Decodes d := by
    intro d hd
    exact (Context.decodes_across ht d).mpr (hdec d (hds.mem_iff.mp hd))
  have hends' := all_run p' hdec' log'
  obtain ⟨_, -, -, -, -, hkeeps'⟩ := all_ends hends'
  exact ⟨_, _, hends', h.far.plus ht hds, h.noted.append (Context.notes_across ht hds), hkeeps.sound h.sound,
    hkeeps'.sound h.sound'⟩

/-- Rounds go the same way with the table in another order. -/
theorem rounds_across (ht : cx.table.Rearranged table') {n : Nat} (h : cx.Abreast table' p p' log log')
    (hends : Ends (rounds cx n p) log q l) :
    ∃ q' l', Ends (rounds (cx.across table') n p') log' q' l' ∧ cx.Abreast table' q q' l l' := by
  induction n generalizing p p' log log' with
  | zero =>
    obtain ⟨rfl, rfl⟩ := Ends.pure_iff.mp hends
    exact ⟨p', log', Ends.pure_iff.mpr ⟨rfl, rfl⟩, h⟩
  | succ n ih =>
    have hpending := pending_similar h
    rw [rounds_succ_iff] at hends
    split at hends
    · next hnone =>
      obtain ⟨rfl, rfl⟩ := hends
      refine ⟨p', log', rounds_succ_iff.mpr ?_, h⟩
      rw [hpending.isEmpty_eq, if_pos hnone]
      exact ⟨rfl, rfl⟩
    · next hsome =>
      obtain ⟨p₁, log₁, hall, hrest⟩ := hends
      have hdone : ∀ name, name ∈ p'.done ++ pending p' log'.referenced ↔ name ∈ p.done ++ pending p log.referenced := by
        intro name
        rw [List.mem_append, List.mem_append, h.far.done, hpending.mem_iff]
      have hfound : ((pending p' log'.referenced).filterMap (cx.across table').table.get?).Perm
          ((pending p log.referenced).filterMap cx.table.get?) := by
        rw [Context.across_table, ht.get?_eq]
        exact hpending.filterMap _
      obtain ⟨p₁', log₁', hall', hround⟩ := all_across ht (h.settle hdone) hfound hall
      obtain ⟨q', l', hrest', hlast⟩ := ih hround hrest
      refine ⟨q', l', rounds_succ_iff.mpr ?_, hlast⟩
      rw [hpending.isEmpty_eq, if_neg hsome]
      exact ⟨p₁', log₁', hall', hrest'⟩

theorem progress_across (ht : cx.table.Rearranged table') (hends : Ends (progress cx []) {} q l) :
    ∃ q' l', Ends (progress (cx.across table') []) {} q' l' ∧ cx.Abreast table' q q' l l' := by
  rw [progress, Ends.bind_iff] at hends
  obtain ⟨p, log, hall, hrest⟩ := hends
  have hstart : cx.Abreast table' {} {} {} {} :=
    ⟨⟨.refl _, .refl _, fun _ => Iff.rfl⟩, ⟨.refl _, fun _ => Iff.rfl⟩, ⟨by simp, by simp⟩, ⟨by simp, by simp⟩⟩
  obtain ⟨p', log', hall', h⟩ := all_across ht hstart (ht.perm.filter (isSelected cx.options)) hall
  have hdone : ∀ name, name ∈ p'.types.map NamedType.name ↔ name ∈ p.types.map NamedType.name :=
    fun name => (h.far.types.map _).mem_iff
  obtain ⟨q', l', hrest', hlast⟩ := rounds_across ht (h.settle hdone) hrest
  refine ⟨q', l', ?_, hlast⟩
  rw [progress, Ends.bind_iff, Context.across_table, ht.perm.length_eq]
  exact ⟨p', log', hall', hrest'⟩

end Convert

theorem visited_eq_flatMap (policy : NamespacePolicy) (scope : List String) (statements : List Statement) :
    visited policy scope statements = statements.flatMap (declarationsOf policy scope) := by
  induction statements with
  | nil => rfl
  | cons s rest ih => rw [visited, List.flatMap_cons, ih]

namespace SourceFile

/-- No two of the declarations that a policy reaches have the same flat name. -/
def Distinct (file : SourceFile) (policy : NamespacePolicy) : Prop :=
  ((visited policy [] file.statements).map Declaration.name).Nodup

instance (file : SourceFile) (policy : NamespacePolicy) : Decidable (file.Distinct policy) :=
  inferInstanceAs (Decidable (List.Nodup _))

variable {file file' : SourceFile} {source : String} {options : ReadOptions}

/-- Declarations of distinct names all come into the table, and none is hoisted away. -/
theorem Distinct.collect {policy : NamespacePolicy} (h : file.Distinct policy) :
    Table.collect policy file = (⟨policy, visited policy [] file.statements⟩, []) := by
  unfold Distinct at h
  rw [Table.collect, Table.add_of_nodup _ _ (by simpa using h)]
  rfl

theorem Distinct.progress (h : file.Distinct options.namespaces) :
    file.progress source options = Convert.progress (file.context source options) [] := by
  rw [SourceFile.progress, h.collect]

theorem perm_visited (hperm : file'.statements.Perm file.statements) (policy : NamespacePolicy) :
    (visited policy [] file'.statements).Perm (visited policy [] file.statements) := by
  rw [visited_eq_flatMap, visited_eq_flatMap]
  exact hperm.flatMap_right _

theorem Distinct.of_perm {policy : NamespacePolicy} (h : file.Distinct policy)
    (hperm : file'.statements.Perm file.statements) : file'.Distinct policy :=
  ((perm_visited hperm policy).map _).nodup_iff.mpr h

theorem Distinct.rearranged {policy : NamespacePolicy} (h : file.Distinct policy)
    (hperm : file'.statements.Perm file.statements) :
    (Table.collect policy file).1.Rearranged (Table.collect policy file').1 := by
  rw [h.collect, (h.of_perm hperm).collect]
  exact ⟨rfl, perm_visited hperm policy, h⟩

/-- A file that can be converted can be converted in another order. -/
theorem Distinct.convert_of_perm (h : file.Distinct options.namespaces) (hperm : file'.statements.Perm file.statements)
    {c : Conversion Document} (hc : (file.convert source options).result = .ok c) :
    ∃ c', (file'.convert source options).result = .ok c' ∧ c'.data.types.Perm c.data.types ∧
      c'.converted.Perm c.converted ∧ c'.notConverted.Perm c.notConverted ∧
      (file'.convert source options).warnings.Perm (file.convert source options).warnings := by
  have ht := h.rearranged hperm
  obtain ⟨ha, p, log, hends, rfl⟩ := convert_ok_iff.mp hc
  have ha' : file'.Admitted options := fun hf d hd => ha hf d (ht.perm.mem_iff.mp hd)
  have hstart : Ends (Convert.progress (file.context source options) []) {} p log := h.progress ▸ hends
  obtain ⟨p', log', hends', habreast⟩ := Convert.progress_across ht hstart
  have hrun : Ends (file'.progress source options) {} p' log' := by
    rw [(h.of_perm hperm).progress]
    exact hends'
  refine ⟨p'.conversion, by rw [convert_of_ends ha' hrun], habreast.far.types, habreast.far.types.map _,
    habreast.far.notConverted, ?_⟩
  rw [convert_of_ends ha' hrun, convert_of_ends ha hends]
  exact habreast.noted.warnings

/-- The types of a document have distinct names. -/
theorem nodup_of_convert {c : Conversion Document} (hc : (file.convert source options).result = .ok c) :
    (c.data.types.map NamedType.name).Nodup := by
  obtain ⟨-, p, log, hends, rfl⟩ := convert_ok_iff.mp hc
  obtain ⟨base, -, hclosing, -⟩ := Convert.progress_ends (Table.nodup_collect options.namespaces file) hends
  exact hclosing.nodup

/-- The order of declarations does not matter, if each has a flat name of its own: in any order of the statements, a file
can be converted or not, with the same types, the same names of what cannot be converted and the same warnings, if in
another order. And what a declaration comes to does not depend on what was decoded before it, and where decoding then
stood: it yields what it yields alone, and what it notes is added. -/
theorem convert_perm (file file' : SourceFile) (source : String) (options : ReadOptions)
    (hperm : file'.statements.Perm file.statements) (hdistinct : file.Distinct options.namespaces) :
    let run := file.convert source options
    let run' := file'.convert source options
    let cx := file.context source options
    ((∃ c', run'.result = .ok c') ↔ ∃ c, run.result = .ok c) ∧
    (∀ c c', run.result = .ok c → run'.result = .ok c' →
      c'.converted.Perm c.converted ∧ c'.notConverted.Perm c.notConverted ∧ run'.warnings.Perm run.warnings ∧
      c'.data.types.Perm c.data.types ∧
      ∀ t ∈ c.data.types, ∀ t' ∈ c'.data.types, t'.name = t.name → t'.node = t.node) ∧
    ∀ (d : Declaration) (path scope entered : List String) (log : Log),
      (Context.decodeTop { cx with path, scope, entered } d).run.run log =
        (((cx.decodeTop d).run.run {}).1, log ++ ((cx.decodeTop d).run.run {}).2) := by
  intro run run' cx
  refine ⟨⟨?_, ?_⟩, ?_, fun d _ _ _ log => cx.decodeTop_run d log⟩
  · rintro ⟨c', hc'⟩
    obtain ⟨c, hc, -⟩ := (hdistinct.of_perm hperm).convert_of_perm hperm.symm hc'
    exact ⟨c, hc⟩
  · rintro ⟨c, hc⟩
    obtain ⟨c', hc', -⟩ := hdistinct.convert_of_perm hperm hc
    exact ⟨c', hc'⟩
  · intro c c' hc hc'
    obtain ⟨_, hfound, htypes, hnames, hnot, hwarnings⟩ := hdistinct.convert_of_perm hperm hc
    obtain rfl := Except.ok.inj (hfound.symm.trans hc')
    refine ⟨hnames, hnot, hwarnings, htypes, fun t ht t' ht' hname => ?_⟩
    rw [List.inj_on_of_nodup_map (nodup_of_convert hc) (htypes.mem_iff.mp ht') ht hname]

/-- A basket of fruit in both orders: what is referred to comes before or after what refers to it, and both runs warn of a
peel and of a core. -/
theorem convert_perm_basket :
    let basket : Statement := .interface {
      name := "Basket", exported := true
      members := [
        .property "fruit" false (some (.of (.array (.reference "Fruit")))) none none,
        .property "peel" true (some (.keyword .symbol)) none none] }
    let fruit : Statement := .typeAlias {
      name := "Fruit"
      value := .of (.union [.reference "Apple", .of (.literal .null)]) }
    let apple : Statement := .typeAlias {
      name := "Apple"
      value := .of (.object [.property "core" false (some (.keyword .never)) none none]) }
    let file : SourceFile := ⟨[fruit, basket, apple]⟩
    let file' : SourceFile := ⟨[apple, fruit, basket]⟩
    let options : ReadOptions := { nonExported := .included, unsupported := .warn }
    file'.statements.Perm file.statements ∧ file.Distinct options.namespaces ∧
      ∃ c c', (file.convert "" options).result = .ok c ∧ (file'.convert "" options).result = .ok c' ∧
        c.converted = ["Fruit", "Basket", "Apple"] ∧ c'.converted = ["Apple", "Fruit", "Basket"] ∧
        c'.data.types.Perm c.data.types ∧
        (file'.convert "" options).warnings.Perm (file.convert "" options).warnings := by
  intro basket fruit apple file file' options
  have hperm : file'.statements.Perm file.statements :=
    (List.Perm.swap fruit apple [basket]).trans (.cons fruit (.swap basket apple []))
  have hdistinct : file.Distinct options.namespaces := by decide
  obtain ⟨-, hsame, -⟩ := convert_perm file file' "" options hperm hdistinct
  obtain ⟨c, hc, hnames⟩ : ∃ c, (file.convert "" options).result = .ok c ∧
      c.converted = ["Fruit", "Basket", "Apple"] := Conversion.exists_of_names (by decide +kernel)
  obtain ⟨c', hc', hnames'⟩ : ∃ c', (file'.convert "" options).result = .ok c' ∧
      c'.converted = ["Apple", "Fruit", "Basket"] := Conversion.exists_of_names (by decide +kernel)
  obtain ⟨-, -, hwarnings, htypes, -⟩ := hsame c c' hc hc'
  exact ⟨hperm, hdistinct, c, c', hc, hc', hnames, hnames', htypes, hwarnings⟩

end SourceFile

end TypeSchema
