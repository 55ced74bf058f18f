import Mathlib.Data.List.Forall2
import TypeSchema.Convert
import TypeSchema.Proofs.Recovery
import TypeSchema.Proofs.Tables

namespace TypeSchema

theorem map_eq_of_forall₂ {α β γ : Type} {R : α → β → Prop} {f : α → γ} {g : β → γ} {as : List α}
    {bs : List β} (h : List.Forall₂ R as bs) (hfg : ∀ a b, R a b → f a = g b) : as.map f = bs.map g := by
  induction h with
  | nil => rfl
  | cons hab _ ih => rw [List.map_cons, List.map_cons, hfg _ _ hab, ih]

theorem exists_of_forall₂_of_mem {α β : Type} {R : α → β → Prop} {as : List α} {bs : List β}
    (h : List.Forall₂ R as bs) {b : β} (hb : b ∈ bs) : ∃ a ∈ as, R a b := by
  induction h with
  | nil => cases hb
  | cons hab _ ih =>
    rcases List.mem_cons.mp hb with rfl | hb
    · exact ⟨_, List.mem_cons_self, hab⟩
    · obtain ⟨a, ha, hr⟩ := ih hb
      exact ⟨a, List.mem_cons_of_mem _ ha, hr⟩

/-- A statement inside its namespaces. -/
def Placed.nested (p : Placed) : Statement :=
  p.namespaces.foldr (fun name s => .namespaced [name] false [s] none) p.statement

/-- Namespaces around a statement are namespaces around its declarations. -/
theorem declarationsOf_nested {policy : NamespacePolicy} (namespaces : List String) (s : Statement)
    (h : policy = .ignore → namespaces = []) (scope : List String) :
    declarationsOf policy scope (namespaces.foldr (fun name s => .namespaced [name] false [s] none) s) =
      declarationsOf policy (scope ++ namespaces) s := by
  induction namespaces generalizing scope with
  | nil => simp
  | cons name rest ih =>
    have hp : policy ≠ .ignore := fun hp => by simpa using h hp
    rw [List.foldr_cons, declarationsOf, if_neg hp, visited, visited, List.append_nil,
      ih (fun h => absurd h hp), List.append_assoc, List.singleton_append]

/-- What a name stands for among `names`, inside a scope. -/
def NamespacePolicy.target (policy : NamespacePolicy) (names scope : List String) (name : String) : String :=
  match policy.separator? with
  | none => name
  | some separator =>
    ((Table.enclosing scope).map fun outer => joinTexts separator (outer ++ [name])).find? (· ∈ names)
      |>.getD name

theorem Table.resolve?_target (table : Table) (scope : List String) (name : String) :
    ((table.resolve? scope name).map Declaration.name).getD name =
      table.policy.target (table.declarations.map Declaration.name) scope name := by
  unfold resolve? NamespacePolicy.target
  cases table.policy.separator? with
  | none =>
    cases h : table.get? name with
    | none => rfl
    | some d => exact (table.name_of_get? h).1
  | some separator =>
    simp only
    induction enclosing scope with
    | nil => rfl
    | cons outer rest ih =>
      rw [List.findSome?_cons, List.map_cons, List.find?_cons]
      cases h : table.get? (joinTexts separator (outer ++ [name])) with
      | none =>
        have := table.get?_eq_none.mp h
        simpa [this] using ih
      | some d =>
        obtain ⟨hn, hm⟩ := table.name_of_get? h
        have : joinTexts separator (outer ++ [name]) ∈ table.declarations.map Declaration.name :=
          hn ▸ List.mem_map_of_mem hm
        simp [this, hn]

/-- Where every declaration is exported, a reference leads to what its name stands for. -/
theorem ReadBack.leads_of_exported {cx : Context} (h : ∀ d ∈ cx.table.declarations, d.exported)
    (beyond : Beyond) {name : String} (hn : name ∉ ["Array", "Pick", "Omit", "Partial"]) :
    Leads beyond cx
      (cx.table.policy.target (cx.table.declarations.map Declaration.name) cx.scope) name := by
  simp only [List.mem_cons, List.not_mem_nil, or_false, not_or] at hn
  refine ⟨hn.1, by simp [Operator.ofName?, Operator.name, Ne.symm hn.2.1, Ne.symm hn.2.2.1, Ne.symm hn.2.2.2],
    fun span => ?_⟩
  rw [← Table.resolve?_target, Decode.resolve]
  cases hr : cx.table.resolve? cx.scope name with
  | none => rfl
  | some d =>
    have hd : d ∈ cx.table.declarations := by
      unfold Table.resolve? at hr
      split at hr
      · exact (Table.name_of_get? hr).2
      · obtain ⟨outer, -, hg⟩ := List.exists_of_findSome?_eq_some hr
        exact (Table.name_of_get? hg).2
    simp [h d hd]

/-- Declarations that are all read without a word make up the types, in their order. -/
theorem Convert.all_pure (cx : Context) (p : Progress) {ds : List Declaration} {types : List NamedType}
    (h : List.Forall₂ (fun d t => d.name = t.name ∧ cx.decodeTop d = pure (some t.node)) ds types) :
    all cx p ds = pure { p with types := p.types ++ types } := by
  induction h generalizing p with
  | nil => simp [all]
  | cons hd _ ih =>
    rw [all, hd.2, pure_bind, ih, hd.1]
    simp [Progress.add]

/-- A file whose declarations are exported, and read without a word, yields them all. -/
theorem SourceFile.convert_pure {file : SourceFile} {options : ReadOptions} {table : Table}
    (ht : Table.collect options.namespaces file = (table, [])) (he : ∀ d ∈ table.declarations, d.exported)
    (source : String) {types : List NamedType}
    (hd : List.Forall₂ (fun d t => d.name = t.name ∧
      Context.decodeTop { source := source.toList, options, table } d = pure (some t.node))
      table.declarations types) :
    file.convert source options = {
      result := .ok {
        data := ⟨Document.currentVersion, types⟩
        converted := types.map NamedType.name
        notConverted := [] } } := by
  have hhidden : (if options.nonExported = .fail then table.declarations.find? (!·.exported) else none) = none := by
    split
    · rw [List.find?_eq_none]
      intro d hm
      simp [he d hm]
    · rfl
  have hsel : table.declarations.filter (Convert.isSelected options) = table.declarations := by
    rw [List.filter_eq_self]
    intro d hm
    simp [Convert.isSelected, he d hm]
  have hall := Convert.all_pure { source := source.toList, options, table } {} hd
  have hrounds (p : Progress) := Convert.rounds_of_none { source := source.toList, options, table }
    (table.declarations.length + 1) p (show ({} : Log).referenced = [] from rfl)
  simp only [convert, ht, hhidden, Convert.progress, hsel, hall, pure_bind, hrounds]
  rfl

theorem Document.declarations_ok {types roots : List NamedType} {options : WriteOptions} {placed : List Placed}
    (h : types.mapM (fun named =>
      (named.declaration options roots).mapError (Error.inType named.name)) = .ok placed) :
    List.Forall₂ (fun named p => named.declaration options roots = .ok p) types placed := by
  induction types generalizing placed with
  | nil =>
    cases h
    exact .nil
  | cons named rest ih =>
    simp only [List.mapM_cons, bind_ok, pure_ok, Except.ok.injEq] at h
    obtain ⟨p, hp, ps, hps, rfl⟩ := h
    refine .cons ?_ (ih hps)
    cases hd : named.declaration options roots with
    | ok q => simpa [hd, Except.mapError] using hp
    | error e => simp [hd, Except.mapError] at hp

/-- A document as it is read back from its declarations, nested in their namespaces. -/
def Document.recovered (split : NamespaceSplit) (policy : NamespacePolicy) (d : Document) : Document where
  version := currentVersion
  types := d.types.map fun t =>
    { name := t.name
      node := ReadBack.declared
        (policy.target (d.types.map NamedType.name) (split.apply t.name).1) d.types t }

/-- What is true of the declaration of a type, however it is read. -/
def Declaration.Declares (split : NamespaceSplit) (roots : List NamedType) (t : NamedType) (d : Declaration) :
    Prop :=
  d.name = t.name ∧ d.scope = (split.apply t.name).1 ∧ d.exported ∧
    ∀ beyond cx rename, (∀ r ∈ t.node.refs, ReadBack.Leads beyond cx rename r) →
      Decode.declaration beyond cx d = pure (some (ReadBack.declared rename roots t))

theorem visited_nested {types roots : List NamedType} {options : WriteOptions} {placed : List Placed}
    (h : List.Forall₂ (fun named p => NamedType.declaration named options roots = .ok p) types placed)
    (hd : ∀ t ∈ types, ∀ n ∈ t.node.nodes, n.Distinct) (policy : NamespacePolicy)
    (hflat : ∀ t ∈ types, policy.flatName (options.namespaces.apply t.name).1
      (options.namespaces.apply t.name).2 = t.name)
    (hign : policy = .ignore → ∀ t ∈ types, (options.namespaces.apply t.name).1 = []) :
    List.Forall₂ (Declaration.Declares options.namespaces roots) types
      (visited policy [] (placed.map Placed.nested)) := by
  induction h with
  | nil => exact .nil
  | @cons t p ts ps hp _ ih =>
    obtain ⟨body, hns, hdecl, hbody⟩ := ReadBack.declaration_encoded roots t options p hp (hd t List.mem_cons_self)
    have hrest := ih (fun t ht => hd t (List.mem_cons_of_mem _ ht))
      (fun t ht => hflat t (List.mem_cons_of_mem _ ht)) (fun hp t ht => hign hp t (List.mem_cons_of_mem _ ht))
    have hhead : declarationsOf policy [] p.nested =
        [⟨t.name, (options.namespaces.apply t.name).1, true, body⟩] := by
      rw [Placed.nested, declarationsOf_nested _ _ (fun hi => hns ▸ hign hi t List.mem_cons_self), hdecl, hns,
        List.nil_append, hflat t List.mem_cons_self]
    rw [List.map_cons, visited, hhead]
    exact .cons ⟨rfl, rfl, rfl, fun beyond cx rename hr => hbody beyond cx rename _ hr⟩ hrest

/-- The declarations of a document, nested in their namespaces, are converted to the document as it is read
back. -/
theorem Document.convert_nested (d : Document) (options : WriteOptions) (readOptions : ReadOptions)
    (source : String) {placed : List Placed} (h : d.declarations options = .ok placed)
    (hn : (d.types.map NamedType.name).Nodup) (hd : ∀ t ∈ d.types, ∀ n ∈ t.node.nodes, n.Distinct)
    (hr : ∀ t ∈ d.types, ∀ r ∈ t.node.refs, r ∉ ["Array", "Pick", "Omit", "Partial"])
    (hflat : ∀ t ∈ d.types, readOptions.namespaces.flatName (options.namespaces.apply t.name).1
      (options.namespaces.apply t.name).2 = t.name)
    (hign : readOptions.namespaces = .ignore → ∀ t ∈ d.types, (options.namespaces.apply t.name).1 = []) :
    SourceFile.convert ⟨placed.map Placed.nested⟩ source readOptions = {
      result := .ok {
        data := d.recovered options.namespaces readOptions.namespaces
        converted := d.types.map NamedType.name
        notConverted := [] } } := by
  have hv := visited_nested (declarations_ok h) hd readOptions.namespaces hflat hign
  generalize hds : visited readOptions.namespaces [] (placed.map Placed.nested) = ds at hv
  have hnames : d.types.map NamedType.name = ds.map Declaration.name :=
    map_eq_of_forall₂ hv fun t e he => he.1.symm
  have hcollect : Table.collect readOptions.namespaces ⟨placed.map Placed.nested⟩ =
      (⟨readOptions.namespaces, ds⟩, []) := by
    rw [Table.collect, hds, Table.add_of_nodup _ _ (by simpa [hnames] using hn)]
    rfl
  have hexp : ∀ e ∈ ds, e.exported := by
    intro e he
    obtain ⟨t, -, ht⟩ := exists_of_forall₂_of_mem hv he
    exact ht.2.2.1
  have hdecode : List.Forall₂ (fun e t => e.name = t.name ∧
      Context.decodeTop { source := source.toList, options := readOptions, table := ⟨readOptions.namespaces, ds⟩ } e =
        pure (some t.node)) ds (d.recovered options.namespaces readOptions.namespaces).types := by
    rw [Document.recovered, List.forall₂_map_right_iff]
    refine .flip (((List.forall₂_and_left _ _).mpr ⟨hr, hv⟩).imp ?_)
    rintro t e ⟨hrefs, hname, hscope, -, hdecl⟩
    refine ⟨hname, hdecl _ _ _ fun r hm => ?_⟩
    rw [hnames, ← hscope]
    exact ReadBack.leads_of_exported hexp _ (hrefs r hm)
  rw [SourceFile.convert_pure hcollect hexp source hdecode]
  simp [Document.recovered, Function.comp_def]

end TypeSchema
