import TypeSchema.Proofs.Agreement
import TypeSchema.Proofs.Independence

namespace TypeSchema

open Decode (Agrees SameBare SameShape)

/-- Contexts in a file and in the stripped one. They may place what they report elsewhere. -/
structure Context.Mirrors (cx cx' : Context) : Prop where
  options : cx'.options = cx.options
  table : cx'.table = cx.table.stripped
  scope : cx'.scope = cx.scope
  entered : cx'.entered = cx.entered

theorem Context.Mirrors.inside {cx cx' : Context} (h : cx.Mirrors cx') (d : Declaration) :
    (cx.inside d).Mirrors (cx'.inside d.stripped) :=
  ⟨h.options, h.table, rfl, congrArg (d.name :: ·) h.entered⟩

theorem Decode.Agrees.note {change : Log → Log} {change' : Log → Log}
    (h : ∀ log log', log.referenced = log'.referenced → (change log).referenced = (change' log').referenced) :
    Agrees (fun _ _ => True) (modify change) (modify change') :=
  fun log log' hlog => ⟨trivial, h log log' hlog⟩

theorem Decode.Agrees.get : Agrees (fun log log' => log.referenced = log'.referenced) get get :=
  fun _ _ hlog => ⟨hlog, hlog⟩

/-- The ways into a declaration and into the stripped one agree. -/
structure Beyond.Agrees (beyond : Beyond) : Prop where
  inline : ∀ {cx cx' : Context} (d span span'), cx.Mirrors cx' →
    Decode.Agrees SameBare (beyond.inline cx d span) (beyond.inline cx' d.stripped span')
  expand : ∀ {cx cx' : Context} (d span span'), cx.Mirrors cx' →
    Decode.Agrees SameShape (beyond.expand cx d span) (beyond.expand cx' d.stripped span')

namespace Beyond.Agrees

variable {beyond : Beyond} {cx cx' : Context}

theorem found (h : beyond.Agrees) (hcx : cx.Mirrors cx') (d : Option Declaration) (span span' : Option Span) :
    Decode.Agrees SameShape (d.elim (pure none) fun d => beyond.expand cx d span)
      ((d.map Declaration.stripped).elim (pure none) fun d => beyond.expand cx' d span') := by
  cases d with
  | none => exact Agrees.pure (R := SameShape) rfl
  | some d => exact h.expand d span span' hcx

theorem resolve (h : beyond.Agrees) (hcx : cx.Mirrors cx') (name : String) (span span' : Option Span) :
    Decode.Agrees (fun r r' => SameBare r.node r'.node)
      (Decode.resolve beyond cx name span) (Decode.resolve beyond cx' name span') := by
  unfold Decode.resolve
  rw [hcx.table, hcx.scope, hcx.options, Table.resolve?_stripped]
  cases cx.table.resolve? cx.scope name with
  | none => exact .pure rfl
  | some d =>
    dsimp only [Option.map_some]
    rw [Declaration.stripped_exported, Declaration.stripped_name]
    cases d.exported with
    | true => exact .pure rfl
    | false =>
      cases cx.options.nonExported with
      | includeIfReferenced =>
        refine (Agrees.note fun log log' hlog => ?_).bind fun _ _ _ => .pure rfl
        rw [hlog]
        split
        · exact hlog
        · rfl
      | inline => exact (h.inline d span span' hcx).bind fun node node' hn => .pure hn
      | fail | ignore | included => exact .pure rfl

theorem mirrors (h : beyond.Agrees) (hcx : cx.Mirrors cx') : Decode.Mirrors beyond beyond cx cx' where
  policy := congrArg ReadOptions.unsupported hcx.options
  resolve := h.resolve hcx
  expand name span span' := by
    rw [hcx.table, Table.get?_stripped]
    exact h.found hcx _ span span'
  inherit name span span' := by
    rw [hcx.table, hcx.scope, Table.resolve?_stripped]
    exact h.found hcx _ span span'

end Beyond.Agrees

/-- However deep declarations stand inside one another, the same ones are found to stand inside themselves. -/
theorem Beyond.within_agrees (depth : Nat) : (within depth).Agrees := by
  induction depth with
  | zero => exact ⟨fun d span span' hcx => .throw _ _, fun d span span' hcx => .throw _ _⟩
  | succ depth ih =>
    refine ⟨fun {cx cx'} d span span' hcx => ?_, fun {cx cx'} d span span' hcx => ?_⟩
    all_goals
      simp only [within, hcx.entered, Declaration.stripped_name]
      split
    · exact .throw _ _
    · exact Decode.declaration_agrees (ih.mirrors (hcx.inside d)) d
    · exact .throw _ _
    · exact Decode.shape_agrees (ih.mirrors (hcx.inside d)) d

theorem Context.Mirrors.decodeTop {cx cx' : Context} (h : cx.Mirrors cx') (d : Declaration) :
    Agrees SameBare (cx.decodeTop d) (cx'.decodeTop d.stripped) := by
  have hlength : cx'.table.declarations.length = cx.table.declarations.length := by
    rw [h.table, Table.stripped_declarations, List.length_map]
  have htop : Context.Mirrors { cx with path := [d.name], scope := d.scope, entered := [] }
      { cx' with path := [d.name], scope := d.scope, entered := [] } :=
    ⟨h.options, h.table, rfl, rfl⟩
  rw [Context.decodeTop, Context.decodeTop, hlength]
  exact Decode.declaration_agrees ((Beyond.within_agrees _).mirrors htop) d

/-- The progress, with no annotations on the types. -/
def Progress.bare (p : Progress) : Progress := { p with types := p.types.map NamedType.bare }

theorem Progress.names_of_bare {p p' : Progress} (h : p.bare = p'.bare) :
    p.types.map NamedType.name = p'.types.map NamedType.name := by
  have hbare := congrArg (fun p => p.types.map NamedType.name) h
  simp only [bare, List.map_map] at hbare
  exact hbare

theorem Progress.add_bare (name : String) {p p' : Progress} (hp : p.bare = p'.bare) {node node' : Option Node}
    (hn : SameBare node node') : (p.add name node).bare = (p'.add name node').bare := by
  simp only [bare, mk.injEq] at hp
  cases node with
  | none =>
    obtain rfl := hn.eq_none
    simp only [add, bare, hp]
  | some node =>
    obtain ⟨node', rfl, hbare⟩ := hn.eq_some
    simp only [add, bare, List.map_append, List.map_cons, List.map_nil, NamedType.bare, hp, hbare]

namespace Convert

variable {cx cx' : Context}

/-- Which names are pending, bare types tell. -/
theorem pending_bare (p : Progress) (referenced : List String) : pending p.bare referenced = pending p referenced := by
  unfold pending
  refine List.filter_congr fun name _ => ?_
  simp only [Progress.bare, List.any_map, Function.comp_def, NamedType.bare, Node.references_bare]

theorem all_agrees (h : cx.Mirrors cx') {p p' : Progress} (hp : p.bare = p'.bare) (ds : List Declaration) :
    Agrees (fun p p' => p.bare = p'.bare) (all cx p ds) (all cx' p' (ds.map Declaration.stripped)) := by
  induction ds generalizing p p' with
  | nil => exact .pure hp
  | cons d rest ih => exact (h.decodeTop d).bind fun node node' hn => ih (Progress.add_bare d.name hp hn)

theorem rounds_agrees (h : cx.Mirrors cx') (n : Nat) {p p' : Progress} (hp : p.bare = p'.bare) :
    Agrees (fun p p' => p.bare = p'.bare) (rounds cx n p) (rounds cx' n p') := by
  induction n generalizing p p' with
  | zero => exact .pure hp
  | succ n ih =>
    refine Agrees.get.bind fun log log' hlog => ?_
    have hpending : pending p' log'.referenced = pending p log.referenced := by
      rw [← pending_bare, ← hp, pending_bare, hlog]
    have hfound : ∀ names : List String, names.filterMap cx'.table.get? =
        (names.filterMap cx.table.get?).map Declaration.stripped := by
      intro names
      rw [List.map_filterMap, h.table]
      exact List.filterMap_congr fun name _ => cx.table.get?_stripped name
    dsimp only
    rw [hpending, hfound]
    split
    · exact .pure hp
    · refine (all_agrees h ?_ _).bind fun p p' hp => ih hp
      simp only [Progress.bare, Progress.mk.injEq] at hp ⊢
      simp only [hp, and_self]

theorem progress_agrees (h : cx.Mirrors cx') (hoistedAway : List String) :
    Agrees (fun p p' => p.bare = p'.bare) (progress cx hoistedAway) (progress cx' hoistedAway) := by
  have hselected : cx'.table.declarations.filter (isSelected cx'.options) =
      (cx.table.declarations.filter (isSelected cx.options)).map Declaration.stripped := by
    rw [h.table, h.options, Table.stripped_declarations, List.filter_map]
    rfl
  have hlength : cx'.table.declarations.length = cx.table.declarations.length := by
    rw [h.table, Table.stripped_declarations, List.length_map]
  unfold progress
  rw [hselected, hlength]
  refine (all_agrees h rfl _).bind fun p p' hp => rounds_agrees h _ ?_
  have hnames := Progress.names_of_bare hp
  simp only [Progress.bare, Progress.mk.injEq] at hp ⊢
  simp only [hp, hnames, and_self]

end Convert

/-- A conversion without annotations is that of the bare types. -/
theorem Progress.conversion_bare {p p' : Progress} (h : p.bare = p'.bare) : p.conversion.bare = p'.conversion.bare := by
  have hnames := Progress.names_of_bare h
  simp only [bare, mk.injEq] at h
  simp only [conversion, Conversion.bare, h, hnames]

namespace SourceFile

theorem admitted_stripped (file : SourceFile) (options : ReadOptions) :
    file.stripped.Admitted options ↔ file.Admitted options := by
  simp only [Admitted, Table.collect_stripped, Table.stripped_declarations, List.forall_mem_map,
    Declaration.stripped_exported]

theorem progress_stripped (file : SourceFile) (source source' : String) (options : ReadOptions) :
    Agrees (fun p p' => p.bare = p'.bare) (file.progress source options) (file.stripped.progress source' options) := by
  have hcx : (file.context source options).Mirrors (file.stripped.context source' options) := by
    refine ⟨rfl, ?_, rfl, rfl⟩
    rw [context, context, Table.collect_stripped]
  have htwo := Convert.progress_agrees hcx (Table.collect options.namespaces file).2
  rw [SourceFile.progress, SourceFile.progress, Table.collect_stripped]
  exact htwo

/-- Comments and redundant parentheses never change the structure of what a file is converted to, whatever the options
are and wherever its declarations stand in the text: the file without them converts if and only if the file does, to
types of the same names with nodes that are the same but for annotations, and with the same names of what cannot be
converted. -/
theorem convert_stripped (file : SourceFile) (source source' : String) (options : ReadOptions) :
    (file.stripped.convert source' options).result.toOption.map Conversion.bare =
      (file.convert source options).result.toOption.map Conversion.bare := by
  by_cases ha : file.Admitted options
  · have hempty : ({} : Log).referenced = ({} : Log).referenced := rfl
    have hruns := file.progress_stripped source source' options hempty
    rw [convert_of_admitted ha, convert_of_admitted ((file.admitted_stripped options).mpr ha)]
    rcases hrun : (file.progress source options).run.run {} with ⟨result, log⟩
    rcases hrun' : (file.stripped.progress source' options).run.run {} with ⟨result', log'⟩
    rw [hrun, hrun'] at hruns
    cases result with
    | error e =>
      cases result' with
      | error e' => rfl
      | ok p' => exact hruns.elim
    | ok p =>
      cases result' with
      | error e' => exact hruns.elim
      | ok p' => exact congrArg some (Progress.conversion_bare hruns.1).symm
  · have ha' : ¬file.stripped.Admitted options := mt (file.admitted_stripped options).mp ha
    obtain ⟨place, hrefused⟩ : ∃ place, file.convert source options = { result := .error (.malformed .nonExported place) } :=
      convert_of_not_admitted ha
    obtain ⟨place', hrefused'⟩ :
        ∃ place, file.stripped.convert source' options = { result := .error (.malformed .nonExported place) } :=
      convert_of_not_admitted ha'
    rw [hrefused, hrefused']
    rfl

end SourceFile

end TypeSchema
