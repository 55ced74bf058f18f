import TypeSchema.Proofs.Collecting

namespace TypeSchema

/-- What is least is found at its first place. -/
theorem argmin_eq_append {α : Type} {f : α → Nat} {l : List α} {m : α} (h : l.argmin f = some m) :
    ∃ before after, l = before ++ m :: after ∧ (∀ a ∈ before, f m < f a) ∧ ∀ a ∈ after, f m ≤ f a := by
  induction l with
  | nil => cases h
  | cons a rest ih =>
    rw [List.argmin_cons] at h
    cases hrest : rest.argmin f with
    | none =>
      rw [hrest] at h
      obtain rfl : a = m := Option.some.inj h
      rw [List.argmin_eq_none.mp hrest]
      exact ⟨[], [], rfl, by simp, by simp⟩
    | some c =>
      rw [hrest] at h
      dsimp only at h
      split at h
      · next hlt =>
        obtain rfl : c = m := Option.some.inj h
        obtain ⟨before, after, rfl, hbefore, hafter⟩ := ih hrest
        refine ⟨a :: before, after, rfl, ?_, hafter⟩
        rintro b (_ | ⟨_, hb⟩)
        · exact hlt
        · exact hbefore b hb
      · next hle =>
        obtain rfl : a = m := Option.some.inj h
        refine ⟨[], rest, rfl, by simp, fun b hb => ?_⟩
        exact (not_lt.mp hle).trans (List.le_of_mem_argmin hb hrest)

/-- A declaration stands among statements, at any depth, in these namespaces. -/
inductive Stands : List Statement → List String → DeclarationBody → Prop
  | interface {ss : List Statement} {decl : Interface} : .interface decl ∈ ss → Stands ss [] (.interface decl)
  | typeAlias {ss : List Statement} {decl : Alias} : .typeAlias decl ∈ ss → Stands ss [] (.typeAlias decl)
  | namespaced {ss body : List Statement} {path scope : List String} {exported : Bool} {span : Option Span}
      {inner : DeclarationBody} : .namespaced path exported body span ∈ ss → Stands body scope inner →
      Stands ss (path ++ scope) inner

theorem Stands.mono {ss more : List Statement} {scope : List String} {body : DeclarationBody}
    (h : Stands ss scope body) (hsub : ss ⊆ more) : Stands more scope body := by
  cases h with
  | interface hm => exact .interface (hsub hm)
  | typeAlias hm => exact .typeAlias (hsub hm)
  | namespaced hm hinner => exact .namespaced (hsub hm) hinner

namespace Table

theorem mem_visited_of_stands {policy : NamespacePolicy} (hp : policy ≠ .ignore) {ss : List Statement}
    {scope : List String} {body : DeclarationBody} (h : Stands ss scope body) (outer : List String) :
    ∃ d ∈ visited policy outer ss, d.scope = outer ++ scope ∧ d.body = body := by
  induction h generalizing outer with
  | @interface _ decl hmem =>
    refine ⟨⟨policy.flatName outer decl.name, outer, decl.exported, .interface decl⟩, ?_, (List.append_nil outer).symm, rfl⟩
    rw [visited_eq_flatMap]
    exact List.mem_flatMap.mpr ⟨_, hmem, List.mem_singleton_self _⟩
  | @typeAlias _ decl hmem =>
    refine ⟨⟨policy.flatName outer decl.name, outer, decl.exported, .typeAlias decl⟩, ?_, (List.append_nil outer).symm, rfl⟩
    rw [visited_eq_flatMap]
    exact List.mem_flatMap.mpr ⟨_, hmem, List.mem_singleton_self _⟩
  | namespaced hmem _ ih =>
    obtain ⟨d, hd, hscope, hbody⟩ := ih (outer ++ _)
    refine ⟨d, ?_, by rw [hscope, List.append_assoc], hbody⟩
    rw [visited_eq_flatMap]
    refine List.mem_flatMap.mpr ⟨_, hmem, ?_⟩
    rwa [declarationsOf, if_neg hp]

mutual

theorem stands_of_mem_declarationsOf {policy : NamespacePolicy} {outer : List String} {ss : List Statement}
    {s : Statement} {d : Declaration} (h : d ∈ declarationsOf policy outer s) (hs : s ∈ ss) :
    d.name = policy.flatName d.scope d.localName ∧ ∃ scope, d.scope = outer ++ scope ∧ Stands ss scope d.body := by
  match s with
  | .interface decl =>
    obtain rfl := List.mem_singleton.mp h
    exact ⟨rfl, [], (List.append_nil outer).symm, .interface hs⟩
  | .typeAlias decl =>
    obtain rfl := List.mem_singleton.mp h
    exact ⟨rfl, [], (List.append_nil outer).symm, .typeAlias hs⟩
  | .namespaced path exported body span =>
    rw [declarationsOf] at h
    split at h
    · cases h
    · obtain ⟨hname, scope, hscope, hstands⟩ := stands_of_mem_visited h
      exact ⟨hname, path ++ scope, by rw [hscope, List.append_assoc], .namespaced hs hstands⟩

/-- What is visited stands there, and goes by the name that the policy gives it. -/
theorem stands_of_mem_visited {policy : NamespacePolicy} {outer : List String} {ss : List Statement} {d : Declaration}
    (h : d ∈ visited policy outer ss) :
    d.name = policy.flatName d.scope d.localName ∧ ∃ scope, d.scope = outer ++ scope ∧ Stands ss scope d.body := by
  match ss with
  | [] => cases h
  | s :: rest =>
    rw [visited] at h
    rcases List.mem_append.mp h with h | h
    · exact stands_of_mem_declarationsOf h List.mem_cons_self
    · obtain ⟨hname, scope, hscope, hstands⟩ := stands_of_mem_visited h
      exact ⟨hname, scope, hscope, hstands.mono (List.subset_cons_self s rest)⟩

end

theorem stands_iff {policy : NamespacePolicy} (hp : policy ≠ .ignore) (file : SourceFile) (scope : List String)
    (body : DeclarationBody) : Stands file.statements scope body ↔
      ∃ d ∈ visited policy [] file.statements, d.scope = scope ∧ d.body = body := by
  constructor
  · exact fun h => mem_visited_of_stands hp h []
  · rintro ⟨d, hd, rfl, rfl⟩
    obtain ⟨-, scope, hscope, hstands⟩ := stands_of_mem_visited hd
    rwa [hscope]

/-- The names of a table with more declarations, each at the place of its first declaration. -/
theorem names_add (table : Table) (ds : List Declaration) :
    (table.add ds).1.declarations.map Declaration.name = table.declarations.map Declaration.name ++
      ((ds.map Declaration.name).removeAll (table.declarations.map Declaration.name)).eraseDups := by
  induction ds generalizing table with
  | nil => simp [add]
  | cons d rest ih =>
    rw [add, ih, List.map_cons, List.cons_removeAll]
    dsimp only
    rw [names_insert]
    by_cases hm : d.name ∈ table.declarations.map Declaration.name
    · rw [if_pos hm, if_neg (by simpa using hm)]
    · rw [if_neg hm, if_pos (by simpa using hm), List.eraseDups_cons, List.append_assoc, List.singleton_append]
      congr 3
      rw [List.removeAll, List.removeAll, List.filter_filter]
      refine List.filter_congr fun name _ => ?_
      by_cases hname : name = d.name <;> simp [hname]

theorem names_collect (policy : NamespacePolicy) (file : SourceFile) :
    (collect policy file).1.declarations.map Declaration.name =
      ((visited policy [] file.statements).map Declaration.name).eraseDups := by
  rw [collect, names_add]
  simp

/-- What is collected is the first declaration of its name that no other one ranks below. -/
theorem collected_first {policy : NamespacePolicy} {file : SourceFile} {d : Declaration}
    (hd : d ∈ (collect policy file).1.declarations) :
    ∃ before after, visited policy [] file.statements = before ++ d :: after ∧
      (∀ e ∈ before, e.name = d.name → policy.rank d < policy.rank e) ∧
      ∀ e ∈ after, e.name = d.name → policy.rank d ≤ policy.rank e := by
  have hget := get?_of_mem (nodup_collect policy file) hd
  rw [get?_collect] at hget
  obtain ⟨before, after, hsplit, hbefore, hafter⟩ := argmin_eq_append hget
  -- the declarations of the name are split there, and so are all declarations
  obtain ⟨front, back, hall, rfl, hback⟩ := List.filter_eq_append_iff.mp hsplit
  obtain ⟨skipped, rest, rfl, hskipped, -, rfl⟩ := List.filter_eq_cons_iff.mp hback
  refine ⟨front ++ skipped, rest, by rw [hall, List.append_assoc], fun e he hname => ?_, fun e he hname => ?_⟩
  · rcases List.mem_append.mp he with he | he
    · exact hbefore e (List.mem_filter.mpr ⟨he, by simpa using hname⟩)
    · exact absurd (by simpa using hname) (hskipped e he)
  · exact hafter e (List.mem_filter.mpr ⟨he, by simpa using hname⟩)

/-- What is hoisted goes by its local name. -/
theorem name_hoisted {file : SourceFile} {d : Declaration} (hd : d ∈ visited .hoist [] file.statements) :
    d.name = d.localName :=
  (stands_of_mem_visited hd).1

/-- Hoisting, whatever namespaces are in a file. A table has one entry for each local name that is declared in it at
any depth, in the order in which the names are first declared; the entry is the first of the shallowest declarations of
its name. The entries and the declarations that are reported as hoisted away are all declarations of the file. -/
theorem collect_hoist (file : SourceFile) :
    let all := visited .hoist [] file.statements
    let table := (collect .hoist file).1
    let reported := (collect .hoist file).2
    (∀ scope body, Stands file.statements scope body ↔ ∃ d ∈ all, d.scope = scope ∧ d.body = body) ∧
    (∀ d ∈ table.declarations, d.name = d.localName) ∧
    table.declarations.map Declaration.localName = (all.map Declaration.localName).eraseDups ∧
    (∀ d ∈ table.declarations, ∃ before after, all = before ++ d :: after ∧
      (∀ e ∈ before, e.localName = d.localName → d.scope.length < e.scope.length) ∧
      ∀ e ∈ after, e.localName = d.localName → d.scope.length ≤ e.scope.length) ∧
    (table.declarations.map Declaration.dottedName ++ reported).Perm (all.map Declaration.dottedName) := by
  intro all table reported
  obtain ⟨lost, hperm, hreported, -⟩ := collect_perm .hoist file
  have hlocal : ∀ d ∈ table.declarations, d.name = d.localName := fun d hd =>
    name_hoisted (hperm.mem_iff.mpr (List.mem_append_right lost hd))
  refine ⟨fun scope body => stands_iff (by decide) file scope body, hlocal, ?_, fun d hd => ?_, ?_⟩
  · rw [← List.map_congr_left hlocal, ← List.map_congr_left fun d => name_hoisted]
    exact names_collect .hoist file
  · obtain ⟨before, after, hall, hbefore, hafter⟩ := collected_first hd
    have hname : ∀ e ∈ all, e.localName = d.localName → e.name = d.name := fun e he hname => by
      rw [name_hoisted he, hlocal d hd, hname]
    refine ⟨before, after, hall, fun e he h => ?_, fun e he h => ?_⟩
    · exact hbefore e he (hname e (by simp [all, hall, he]) h)
    · exact hafter e he (hname e (by simp [all, hall, he]) h)
  · rw [if_pos rfl] at hreported
    rw [show reported = _ from hreported, ← List.map_append]
    exact ((List.perm_append_comm.trans hperm.symm).map Declaration.dottedName)

/-- Names that are declared in namespaces first: a shallower declaration takes the place of a deeper one, a declaration
at the same depth does not. -/
theorem collect_hoist_nested :
    let box : Statement := .interface { name := "Box" }
    let lid : Statement := .typeAlias { name := "Lid", value := .keyword .string }
    let file : SourceFile := ⟨[.namespaced ["A", "B"] true [box, lid] none, .namespaced ["C"] true [box] none,
      .namespaced ["D"] true [lid, box] none, lid]⟩
    let table := (collect .hoist file).1
    table.declarations.map Declaration.dottedName = ["C.Box", "Lid"] ∧
      (collect .hoist file).2 = ["A.B.Box", "A.B.Lid", "D.Box", "D.Lid"] ∧
      table.declarations.map Declaration.localName = ["Box", "Lid", "Box", "Lid", "Box", "Lid"].eraseDups ∧
      ∃ d ∈ table.declarations, ∃ before after, visited .hoist [] file.statements = before ++ d :: after ∧
        (∀ e ∈ before, e.localName = d.localName → d.scope.length < e.scope.length) ∧
        ∀ e ∈ after, e.localName = d.localName → d.scope.length ≤ e.scope.length := by
  intro box lid file table
  obtain ⟨-, -, hnames, hfirst, -⟩ := collect_hoist file
  refine ⟨rfl, by decide, hnames, _, List.mem_cons_self, hfirst _ List.mem_cons_self⟩

end Table

end TypeSchema
