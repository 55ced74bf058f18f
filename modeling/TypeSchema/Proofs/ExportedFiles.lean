import TypeSchema.Proofs.Independence

namespace TypeSchema

/-- Every declaration of a table is exported. -/
def Table.Exported (table : Table) : Prop := ∀ d ∈ table.declarations, d.exported

namespace Context

variable (cx : Context)

/-- Where every declaration is exported, no step of decoding asks the policy, if going into declarations does not. -/
theorem steps_selecting (h : cx.table.Exported) {beyond : Beyond} (hexpand : ∀ d span,
      (Parallel.same NonExportedPolicy).Holds fun policy => beyond.expand (cx.selecting policy) d span) :
    Decode.Steps (.same NonExportedPolicy) (fun _ => beyond) cx.selecting where
  unsupported _ _ _ _ := rfl
  warn _ _ _ := rfl
  resolve name span := by
    simp only [Decode.resolve, selecting_table, selecting_scope]
    cases hr : cx.table.resolve? cx.scope name with
    | none => exact fun _ _ => rfl
    | some d =>
      have he := h d (Table.name_of_get? (Table.get?_of_resolve? hr)).2
      simp only [he, if_true]
      exact fun _ _ => rfl
  expand name span := by
    simp only [selecting_table]
    cases cx.table.get? name with
    | none => exact fun _ _ => rfl
    | some d => exact hexpand d span
  inherit name span := by
    simp only [selecting_table, selecting_scope]
    cases cx.table.resolve? cx.scope name with
    | none => exact fun _ _ => rfl
    | some d => exact hexpand d span

theorem expand_selecting (h : cx.table.Exported) (depth : Nat) (d : Declaration) (span : Option Span) :
    (Parallel.same NonExportedPolicy).Holds fun policy => (Beyond.within depth).expand (cx.selecting policy) d span := by
  induction depth generalizing cx d span with
  | zero => exact fun _ _ => rfl
  | succ depth ih =>
    by_cases hd : d.name ∈ cx.entered <;> simp only [Beyond.within, selecting_entered, hd, if_true, if_false]
    · exact fun _ _ => rfl
    · exact Decode.shape_holds ((cx.inside d).steps_selecting h (ih (cx.inside d) h)) d

theorem decodeTop_selecting (h : cx.table.Exported) (d : Declaration) :
    (Parallel.same NonExportedPolicy).Holds fun policy => (cx.selecting policy).decodeTop d := by
  let top : Context := { cx with path := [d.name], scope := d.scope, entered := [] }
  exact Decode.declaration_holds (top.steps_selecting h (top.expand_selecting h cx.table.declarations.length)) d

end Context

namespace Convert

variable {cx : Context} (h : cx.table.Exported)
include h

theorem all_selecting (p : Progress) (ds : List Declaration) :
    (Parallel.same NonExportedPolicy).Holds fun policy => all (cx.selecting policy) p ds := by
  induction ds generalizing p with
  | nil => exact Parallel.pure _ p
  | cons d rest ih => exact Parallel.bind _ (cx.decodeTop_selecting h d) fun node => ih (p.add d.name node)

theorem rounds_selecting (n : Nat) (p : Progress) :
    (Parallel.same NonExportedPolicy).Holds fun policy => rounds (cx.selecting policy) n p := by
  induction n generalizing p with
  | zero => exact Parallel.pure _ p
  | succ n ih =>
    refine Parallel.bind _ (fun _ _ => rfl) fun log => ?_
    simp only [Context.selecting_table]
    split
    · exact Parallel.pure _ p
    · exact Parallel.bind _ (all_selecting h _ _) ih

/-- Where every declaration is exported, the policy for others makes no difference to a conversion. -/
theorem progress_selecting (hoistedAway : List String) :
    (Parallel.same NonExportedPolicy).Holds fun policy => progress (cx.selecting policy) hoistedAway := by
  have hselected (policy : NonExportedPolicy) :
      cx.table.declarations.filter (isSelected (cx.selecting policy).options) = cx.table.declarations := by
    apply List.filter_eq_self.mpr
    intro d hd
    simp [isSelected, h d hd]
  simp only [progress, Context.selecting_table, hselected]
  exact Parallel.bind _ (all_selecting h _ _) fun p => rounds_selecting h _ _

end Convert

/-- Runs never refuse a declaration for not being exported. -/
def Parallel.sparing : Parallel Unit where
  Holds m := ∀ log place, ((m ()).run.run log).1 ≠ .error (.malformed .nonExported place)
  pure _ _ _ := nofun
  bind {_ _ m f} hm hf log place := by
    rw [Decode.run_bind]
    have hfirst := hm log place
    cases hrun : (m ()).run.run log with
    | mk result log' =>
      rw [hrun] at hfirst
      cases result with
      | error e =>
        rintro ⟨⟩
        exact hfirst rfl
      | ok a => exact hf a log' place

namespace Context

variable (cx : Context)

theorem warn_spares (omission : Omission) (span : Option Span) : Parallel.sparing.Holds fun _ => cx.warn omission span :=
  fun _ _ => nofun

theorem unsupported_spares {α : Type} (cause : Unsupported) (span : Option Span) :
    Parallel.sparing.Holds fun _ => (cx.unsupported cause span : Decode (Option α)) := by
  unfold unsupported
  cases cx.options.unsupported with
  | ignore => exact Parallel.pure _ none
  | warn => exact Parallel.bind _ (cx.warn_spares _ span) fun _ => Parallel.pure _ none
  | error => exact fun _ _ => nofun

theorem cyclic_spares {α : Type} (expansion : Expansion) (d : Declaration) (span : Option Span) :
    Parallel.sparing.Holds fun _ => (cx.cyclic expansion d span : Decode α) := fun _ _ => nofun

end Context

/-- Going into a declaration never refuses one for not being exported. -/
structure Beyond.Spares (beyond : Beyond) : Prop where
  inline : ∀ cx d span, Parallel.sparing.Holds fun _ => beyond.inline cx d span
  expand : ∀ cx d span, Parallel.sparing.Holds fun _ => beyond.expand cx d span

theorem Beyond.Spares.steps {beyond : Beyond} (h : beyond.Spares) (cx : Context) :
    Decode.Steps .sparing (fun _ => beyond) fun _ => cx where
  unsupported := cx.unsupported_spares
  warn := cx.warn_spares _
  resolve name span := by
    unfold Decode.resolve
    cases cx.table.resolve? cx.scope name with
    | none => exact Parallel.pure _ _
    | some d =>
      dsimp only
      split
      · exact Parallel.pure _ _
      · cases cx.options.nonExported with
        | inline => exact Parallel.bind _ (h.inline cx d span) fun node => Parallel.pure _ _
        | includeIfReferenced => exact fun _ _ => nofun
        | _ => exact Parallel.pure _ _
  expand name span := by
    cases cx.table.get? name with
    | none => exact Parallel.pure _ _
    | some d => exact h.expand cx d span
  inherit name span := by
    cases cx.table.resolve? cx.scope name with
    | none => exact Parallel.pure _ _
    | some d => exact h.expand cx d span

theorem Beyond.within_spares (depth : Nat) : (within depth).Spares := by
  induction depth with
  | zero => exact ⟨fun cx => cx.cyclic_spares .inline, fun cx => cx.cyclic_spares .expand⟩
  | succ depth ih =>
    refine ⟨fun cx d span => ?_, fun cx d span => ?_⟩ <;> by_cases hd : d.name ∈ cx.entered <;>
      simp only [within, hd, if_true, if_false]
    · exact cx.cyclic_spares .inline d span
    · exact Decode.declaration_holds (ih.steps (cx.inside d)) d
    · exact cx.cyclic_spares .expand d span
    · exact Decode.shape_holds (ih.steps (cx.inside d)) d

namespace Convert

variable (cx : Context)

theorem all_spares (p : Progress) (ds : List Declaration) : Parallel.sparing.Holds fun _ => all cx p ds := by
  induction ds generalizing p with
  | nil => exact Parallel.pure _ p
  | cons d rest ih =>
    exact Parallel.bind _ (Decode.declaration_holds ((Beyond.within_spares _).steps _) d) fun node => ih (p.add d.name node)

theorem rounds_spares (n : Nat) (p : Progress) : Parallel.sparing.Holds fun _ => rounds cx n p := by
  induction n generalizing p with
  | zero => exact Parallel.pure _ p
  | succ n ih =>
    refine Parallel.bind _ (fun _ _ => nofun) fun log => ?_
    dsimp only
    split
    · exact Parallel.pure _ p
    · exact Parallel.bind _ (all_spares cx _ _) ih

theorem progress_spares (hoistedAway : List String) : Parallel.sparing.Holds fun _ => progress cx hoistedAway :=
  Parallel.bind _ (all_spares cx _ _) fun _ => rounds_spares cx _ _

end Convert

namespace SourceFile

variable {file : SourceFile} {source : String} {options : ReadOptions}

theorem convert_of_exported (h : (Table.collect options.namespaces file).1.Exported) (policy : NonExportedPolicy) :
    file.convert source { options with nonExported := policy } =
      .ofRun (((Convert.progress (file.context source options)) (Table.collect options.namespaces file).2).run.run {}) := by
  have ha : file.Admitted { options with nonExported := policy } := fun _ => h
  have hcontext : (file.context source options).table.Exported := h
  rw [convert_of_admitted ha]
  exact congrArg (fun run : Decode Progress => Outcome.ofRun (run.run.run {}))
    (Convert.progress_selecting hcontext _ policy options.nonExported)

/-- The place of a declaration in a source text. -/
def declaredAt (source : String) (d : Declaration) : Place :=
  { d.span.elim {} (Place.ofSpan source.toList) with path := [d.name] }

/-- The first declaration that is not exported is what a file is refused for. -/
theorem convert_of_hidden {before after : List Declaration} {d : Declaration}
    (htable : (Table.collect options.namespaces file).1.declarations = before ++ d :: after)
    (hbefore : ∀ e ∈ before, e.exported) (hd : d.exported = false) :
    file.convert source { options with nonExported := .fail } =
      { result := .error (.malformed .nonExported (declaredAt source d)), warnings := [] } := by
  have hfind : (Table.collect options.namespaces file).1.declarations.find? (!·.exported) = some d := by
    rw [htable, List.find?_append, List.find?_eq_none.mpr fun e he => by simp [hbefore e he]]
    simp [hd]
  simp only [convert, if_true, hfind]
  cases hspan : d.span <;> simp [declaredAt, hspan, Context.place]

/-- No file is refused for a declaration that is not exported but where there must be none. -/
theorem convert_refused_iff : (∃ place, (file.convert source options).result = .error (.malformed .nonExported place)) ↔
    ¬file.Admitted options := by
  constructor
  · rintro ⟨place, hresult⟩ ha
    have hspared := Convert.progress_spares (file.context source options) (Table.collect options.namespaces file).2 {} place
    rw [convert_of_admitted ha, Outcome.ofRun] at hresult
    change ((file.progress source options).run.run {}).1 ≠ _ at hspared
    cases hrun : ((file.progress source options).run.run {}).1 with
    | ok p =>
      rw [hrun] at hresult
      cases hresult
    | error e =>
      rw [hrun] at hresult hspared
      obtain rfl : e = _ := Except.error.inj hresult
      exact hspared rfl
  · intro ha
    obtain ⟨place, hplace⟩ := convert_of_not_admitted ha
    exact ⟨place, by rw [hplace]⟩

/-- Where every collected declaration is exported, conversions under all policies for others have the same outcome, the
warnings and the error of a failure included. Where one is not, a conversion that must fail for it does so before anything
else, without a warning, and names the first one; and it never fails for it otherwise. -/
theorem convert_fail_exact (file : SourceFile) (source : String) (options : ReadOptions) :
    let collected := (Table.collect options.namespaces file).1.declarations
    let run (policy : NonExportedPolicy) := file.convert source { options with nonExported := policy }
    ((∀ d ∈ collected, d.exported) → ∀ policy policy', run policy = run policy') ∧
    (∀ before d after, collected = before ++ d :: after → (∀ e ∈ before, e.exported) → d.exported = false →
      run .fail = { result := .error (.malformed .nonExported (declaredAt source d)), warnings := [] }) ∧
    ∀ policy, (∃ place, (run policy).result = .error (.malformed .nonExported place)) ↔
      policy = .fail ∧ ∃ d ∈ collected, d.exported = false := by
  intro collected run
  refine ⟨fun h policy policy' => ?_, fun before d after => convert_of_hidden, fun policy => ?_⟩
  · exact (convert_of_exported h policy).trans (convert_of_exported h policy').symm
  · rw [convert_refused_iff, Admitted, Classical.not_imp, not_forall]
    simp [collected]

/-- A leaf that is not exported, in a namespace that is: it is not collected where namespaces are passed over, and refused
where they are read. -/
theorem convert_fail_exact_tree :
    let leaf : Statement := .typeAlias { name := "Leaf", value := .keyword .string }
    let tree : Statement := .interface {
      name := "Tree", exported := true
      members := [.property "leaf" false (some (.reference "Leaf")) none none] }
    let file : SourceFile := ⟨[tree, .namespaced ["Wood"] true [leaf] none]⟩
    let run (namespaces : NamespacePolicy) (policy : NonExportedPolicy) :=
      file.convert "" { namespaces, nonExported := policy }
    (∃ c, (run .ignore .fail).result = .ok c ∧ c.converted = ["Tree"]) ∧ (∀ policy, run .ignore policy = run .ignore .fail) ∧
      run .hoist .fail = { result := .error (.malformed .nonExported { path := ["Leaf"] }), warnings := [] } ∧
      ¬∃ place, (run .hoist .inline).result = .error (.malformed .nonExported place) := by
  intro leaf tree file run
  have hconverted : ∃ c, (run .ignore .fail).result = .ok c ∧ c.converted = ["Tree"] :=
    Conversion.exists_of_names (by decide +kernel)
  have hexported : ∀ d ∈ (Table.collect .ignore file).1.declarations, d.exported := by decide
  obtain ⟨hsame, -, -⟩ := convert_fail_exact file "" { namespaces := .ignore }
  obtain ⟨-, hfirst, hexact⟩ := convert_fail_exact file "" { namespaces := .hoist }
  refine ⟨hconverted, fun policy => hsame hexported policy .fail, ?_, fun hrefused => ?_⟩
  · exact hfirst [⟨"Tree", [], true, .interface _⟩] ⟨"Leaf", ["Wood"], false, .typeAlias _⟩ [] rfl (by simp) rfl
  · exact absurd ((hexact .inline).mp hrefused).1 (by decide)

end SourceFile

end TypeSchema
