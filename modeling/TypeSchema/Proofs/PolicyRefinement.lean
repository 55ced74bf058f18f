import TypeSchema.Proofs.Independence
import TypeSchema.Proofs.Inlining

namespace TypeSchema

namespace Context

variable {cx : Context} {policy policy' : NonExportedPolicy}

theorem type?_selecting (h : policy ≠ .inline) (h' : policy' ≠ .inline) :
    (cx.selecting policy).type? = (cx.selecting policy').type? := by
  funext d
  rw [type?, type?, cx.alone_selecting h h']

theorem leftOut?_selecting (h : policy ≠ .inline) (h' : policy' ≠ .inline) :
    (cx.selecting policy).leftOut? = (cx.selecting policy').leftOut? := by
  funext d
  rw [leftOut?, leftOut?, cx.alone_selecting h h']

theorem Decodes.selecting (h : policy ≠ .inline) (h' : policy' ≠ .inline) {d : Declaration}
    (hd : (cx.selecting policy).Decodes d) : (cx.selecting policy').Decodes d := by
  obtain ⟨node, hnode⟩ := hd
  exact ⟨node, (cx.alone_selecting h' h d).trans hnode⟩

end Context

theorem Progress.plus_selecting {cx : Context} {policy policy' : NonExportedPolicy} (h : policy ≠ .inline)
    (h' : policy' ≠ .inline) (p : Progress) (ds : List Declaration) :
    p.plus (cx.selecting policy) ds = p.plus (cx.selecting policy') ds := by
  rw [plus, plus, Context.type?_selecting h h', Context.leftOut?_selecting h h']

namespace Convert

variable {cx : Context}

/-- Where every declaration can be decoded, so can all that is referred to. -/
theorem rounds_ends (hall : ∀ d ∈ cx.table.declarations, cx.Decodes d) (n : Nat) (p : Progress) (log : Log) :
    ∃ p' log', Ends (rounds cx n p) log p' log' := by
  induction n generalizing p log with
  | zero => exact ⟨p, log, rfl⟩
  | succ n ih =>
    by_cases hnone : (pending p log.referenced).isEmpty
    · refine ⟨p, log, rounds_succ_iff.mpr ?_⟩
      rw [if_pos hnone]
      exact ⟨rfl, rfl⟩
    · have hfound : ∀ d ∈ (pending p log.referenced).filterMap cx.table.get?, cx.Decodes d := by
        intro d hd
        obtain ⟨name, -, hname⟩ := List.mem_filterMap.mp hd
        exact hall d (cx.table.name_of_get? hname).2
      have hround := all_run { p with done := p.done ++ pending p log.referenced } hfound log
      obtain ⟨p', log', hrest⟩ := ih _ _
      refine ⟨p', log', rounds_succ_iff.mpr ?_⟩
      rw [if_neg hnone]
      exact ⟨_, _, hround, hrest⟩

/-- Where nothing is noted, the first pass is the whole conversion. -/
theorem progress_ends_selected {hoistedAway : List String} (h : cx.options.nonExported ≠ .includeIfReferenced)
    (hdec : ∀ d ∈ cx.table.declarations.filter (isSelected cx.options), cx.Decodes d) :
    ∃ log, Ends (progress cx hoistedAway) {} (selected cx hoistedAway) log := by
  refine ⟨_, progress_ends_iff.mpr ⟨hdec, rounds_of_none cx _ _ ?_⟩⟩
  exact cx.referenced_notes h _

/-- A type of the document is what its declaration comes to alone. -/
theorem Decoded.type? {types : List NamedType} (h : Decoded cx types) {t : NamedType} (ht : t ∈ types) :
    ∃ d ∈ cx.table.declarations, cx.type? d = some t := by
  obtain ⟨d, log, log', hget, hends⟩ := h t ht
  obtain ⟨hname, hd⟩ := cx.table.name_of_get? hget
  rw [Ends, cx.decodeTop_run, Prod.mk.injEq] at hends
  refine ⟨d, hd, ?_⟩
  rw [Context.type?, hends.1, hname]

theorem isSelected_included (d : Declaration) : isSelected (cx.selecting .included).options d := by
  simp [isSelected]

/-- Where all declarations can be included, so can those that are referenced, and they come to the same. -/
theorem progress_of_included {hoistedAway : List String} (hn : (cx.table.declarations.map Declaration.name).Nodup)
    {all : Progress} {log : Log} (h : Ends (progress (cx.selecting .included) hoistedAway) {} all log) :
    ∃ reached log', Ends (progress (cx.selecting .includeIfReferenced) hoistedAway) {} reached log' ∧
      ∀ t ∈ reached.types, t ∈ all.types := by
  obtain ⟨hdec, hrounds⟩ := progress_ends_iff.mp h
  have hreach : ∀ d ∈ cx.table.declarations, (cx.selecting .includeIfReferenced).Decodes d := by
    intro d hd
    exact (hdec d (List.mem_filter.mpr ⟨hd, isSelected_included d⟩)).selecting (by decide) (by decide)
  obtain ⟨reached, log', hrounds'⟩ := @rounds_ends (cx.selecting .includeIfReferenced) hreach
    (cx.table.declarations.length + 1) (selected (cx.selecting .includeIfReferenced) hoistedAway) _
  have hends : Ends (progress (cx.selecting .includeIfReferenced) hoistedAway) {} reached log' :=
    progress_ends_iff.mpr ⟨fun d hd => hreach d (List.mem_of_mem_filter hd), hrounds'⟩
  refine ⟨reached, log', hends, fun t ht => ?_⟩
  have hdecoded : Decoded (cx.selecting .includeIfReferenced) reached.types := decoded_progress hn hends
  obtain ⟨d, hd, htype⟩ := hdecoded.type? ht
  rw [Context.type?_selecting (by decide) (show NonExportedPolicy.included ≠ .inline by decide)] at htype
  -- in the including conversion, every declaration is decoded in the first pass
  apply (rounds_extends hrounds).1.subset
  apply List.mem_append_right
  exact List.mem_filterMap.mpr ⟨d, List.mem_filter.mpr ⟨hd, isSelected_included d⟩, htype⟩

/-- The first pass of a conversion that includes what is referenced is the conversion of what is exported. -/
theorem selected_ignore (cx : Context) (hoistedAway : List String) :
    selected (cx.selecting .ignore) hoistedAway = selected (cx.selecting .includeIfReferenced) hoistedAway := by
  unfold selected
  rw [Progress.plus_selecting (show NonExportedPolicy.ignore ≠ .inline by decide)
    (show NonExportedPolicy.includeIfReferenced ≠ .inline by decide)]
  rfl

/-- Where what is referenced can be included, what is exported can be converted alone, and comes first. -/
theorem progress_of_includeIfReferenced {hoistedAway : List String} {reached : Progress} {log : Log}
    (h : Ends (progress (cx.selecting .includeIfReferenced) hoistedAway) {} reached log) :
    ∃ exported log', Ends (progress (cx.selecting .ignore) hoistedAway) {} exported log' ∧
      exported.types <+: reached.types ∧ exported.notConverted <+: reached.notConverted := by
  obtain ⟨hdec, hrounds⟩ := progress_ends_iff.mp h
  have hexported : ∀ d ∈ cx.table.declarations.filter (isSelected (cx.selecting .ignore).options),
      (cx.selecting .ignore).Decodes d := by
    intro d hd
    exact (hdec d hd).selecting (by decide) (by decide)
  obtain ⟨log', hends⟩ := @progress_ends_selected (cx.selecting .ignore) hoistedAway (by simp) hexported
  rw [← selected_ignore] at hrounds
  exact ⟨_, log', hends, rounds_extends hrounds⟩

end Convert

theorem SourceFile.convert_selecting_iff {file : SourceFile} {source : String} {options : ReadOptions}
    {policy : NonExportedPolicy} (hp : policy ≠ .fail) {c : Conversion Document} :
    (file.convert source { options with nonExported := policy }).result = .ok c ↔
      ∃ p log, Ends (Convert.progress ((file.context source options).selecting policy)
        (Table.collect options.namespaces file).2) {} p log ∧ c = p.conversion :=
  convert_ok_iff.trans (and_iff_right fun hf => absurd hf hp)

/-- The policies for declarations that are not exported refine one another. Where all declarations can be included, so can
those that are referenced, and each of their types is among all types, node and annotations included; and where these can
be included, the exported ones can be converted alone, and come first. -/
theorem SourceFile.convert_nonExported_refines (file : SourceFile) (source : String) (options : ReadOptions) :
    let run (policy : NonExportedPolicy) := (file.convert source { options with nonExported := policy }).result
    (∀ all, run .included = .ok all →
      ∃ reached, run .includeIfReferenced = .ok reached ∧ ∀ t ∈ reached.data.types, t ∈ all.data.types) ∧
    ∀ reached, run .includeIfReferenced = .ok reached →
      ∃ exported, run .ignore = .ok exported ∧ exported.data.types <+: reached.data.types ∧
        exported.converted <+: reached.converted ∧ exported.notConverted <+: reached.notConverted := by
  intro run
  refine ⟨fun all hall => ?_, fun reached hreached => ?_⟩
  · obtain ⟨p, log, hends, rfl⟩ := (convert_selecting_iff (by decide)).mp hall
    have hn := Table.nodup_collect options.namespaces file
    obtain ⟨reached, log', hends', htypes⟩ := Convert.progress_of_included hn hends
    exact ⟨_, (convert_selecting_iff (by decide)).mpr ⟨reached, log', hends', rfl⟩, htypes⟩
  · obtain ⟨p, log, hends, rfl⟩ := (convert_selecting_iff (by decide)).mp hreached
    obtain ⟨exported, log', hends', htypes, hnot⟩ := Convert.progress_of_includeIfReferenced hends
    exact ⟨_, (convert_selecting_iff (by decide)).mpr ⟨exported, log', hends', rfl⟩, htypes, htypes.map _, hnot⟩

/-- A tree leads to its twigs and they to leaves, none of them exported; nothing leads to the stone, and a box is
generic. -/
theorem SourceFile.convert_nonExported_refines_tree :
    let file : SourceFile := ⟨[
      .typeAlias { name := "Leaf", value := .keyword .string },
      .typeAlias { name := "Stone", value := .keyword .number },
      .typeAlias { name := "Twig", value := .of (.array (.reference "Leaf")) },
      .typeAlias { name := "Box", exported := true, typeParams := ["T"], value := .reference "T" },
      .interface {
        name := "Tree", exported := true
        members := [.property "twig" false (some (.reference "Twig")) none none] }]⟩
    let run (policy : NonExportedPolicy) := (file.convert "" { nonExported := policy }).result
    ∃ all reached exported, run .included = .ok all ∧ run .includeIfReferenced = .ok reached ∧ run .ignore = .ok exported ∧
      all.converted = ["Leaf", "Stone", "Twig", "Tree"] ∧ reached.converted = ["Tree", "Twig", "Leaf"] ∧
      exported.converted = ["Tree"] ∧ (∀ t ∈ reached.data.types, t ∈ all.data.types) ∧
      exported.data.types <+: reached.data.types ∧ exported.notConverted <+: reached.notConverted := by
  intro file run
  obtain ⟨all, hall, hevery⟩ : ∃ c, run .included = .ok c ∧ c.converted = ["Leaf", "Stone", "Twig", "Tree"] :=
    Conversion.exists_of_names (by decide +kernel)
  obtain ⟨reached, hreached, htree⟩ : ∃ c, run .includeIfReferenced = .ok c ∧ c.converted = ["Tree", "Twig", "Leaf"] :=
    Conversion.exists_of_names (by decide +kernel)
  obtain ⟨exported, hexported, hself⟩ : ∃ c, run .ignore = .ok c ∧ c.converted = ["Tree"] :=
    Conversion.exists_of_names (by decide +kernel)
  obtain ⟨hincluded, hreferenced⟩ := file.convert_nonExported_refines "" {}
  obtain ⟨_, hreached', htypes⟩ := hincluded all hall
  obtain rfl := Except.ok.inj (hreached.symm.trans hreached')
  obtain ⟨_, hexported', hbefore, -, hnot⟩ := hreferenced reached hreached
  obtain rfl := Except.ok.inj (hexported.symm.trans hexported')
  exact ⟨all, reached, exported, hall, hreached, hexported, hevery, htree, hself, htypes, hbefore, hnot⟩

end TypeSchema
