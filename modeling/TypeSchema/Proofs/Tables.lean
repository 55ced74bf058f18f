import Mathlib.Data.List.Nodup
import TypeSchema.Table

namespace TypeSchema

namespace Table

/-- A declaration of a new name comes last. -/
theorem insert_of_not_mem {policy : NamespacePolicy} {d : Declaration} {ds : List Declaration}
    (h : ∀ e ∈ ds, e.name ≠ d.name) : insert policy d ds = (ds ++ [d], none) := by
  induction ds with
  | nil => rfl
  | cons e rest ih =>
    rw [insert, if_neg (h e List.mem_cons_self), ih fun e' he => h e' (List.mem_cons_of_mem _ he)]
    rfl

/-- Declarations of distinct names all stay, in their order. -/
theorem add_of_nodup (table : Table) (ds : List Declaration)
    (h : ((table.declarations ++ ds).map Declaration.name).Nodup) :
    table.add ds = ({ table with declarations := table.declarations ++ ds }, []) := by
  induction ds generalizing table with
  | nil => simp [add]
  | cons d rest ih =>
    have hd : ∀ e ∈ table.declarations, e.name ≠ d.name := by
      intro e he heq
      rw [List.map_append, List.nodup_append] at h
      exact h.2.2 _ (List.mem_map_of_mem he) _ (List.mem_map_of_mem List.mem_cons_self) heq
    simp only [add, insert_of_not_mem hd]
    rw [ih { table with declarations := table.declarations ++ [d] } (by simpa using h)]
    simp

theorem get?_eq_none {table : Table} {name : String} :
    table.get? name = none ↔ name ∉ table.declarations.map Declaration.name := by
  simp [get?, List.find?_eq_none]

theorem name_of_get? {table : Table} {name : String} {d : Declaration} (h : table.get? name = some d) :
    d.name = name ∧ d ∈ table.declarations :=
  ⟨by simpa using List.find?_some h, List.mem_of_find?_eq_some h⟩

theorem get?_of_resolve? {table : Table} {scope : List String} {name : String} {d : Declaration}
    (h : table.resolve? scope name = some d) : table.get? d.name = some d := by
  have hget : ∀ {n : String}, table.get? n = some d → table.get? d.name = some d := fun hg =>
    (table.name_of_get? hg).1 ▸ hg
  unfold resolve? at h
  split at h
  · exact hget h
  · obtain ⟨outer, -, hg⟩ := List.exists_of_findSome?_eq_some h
    exact hget hg

theorem get?_of_resolve?_eq_none {table : Table} {scope : List String} {name : String}
    (h : table.resolve? scope name = none) : table.get? name = none := by
  unfold resolve? at h
  split at h
  · exact h
  · next separator hsep =>
    rw [List.findSome?_eq_none_iff] at h
    have := h [] (by simp [enclosing]; exact ⟨0, by simp⟩)
    simpa [joinTexts, joinWith] using this

/-- Each name once, at its first place. -/
theorem names_insert (policy : NamespacePolicy) (d : Declaration) (ds : List Declaration) :
    (insert policy d ds).1.map Declaration.name =
      if d.name ∈ ds.map Declaration.name then ds.map Declaration.name
      else ds.map Declaration.name ++ [d.name] := by
  induction ds with
  | nil => rfl
  | cons e rest ih =>
    rw [insert]
    by_cases he : e.name = d.name
    · rw [if_pos he]
      split <;> simp [he]
    · rw [if_neg he]
      simp only [List.map_cons, List.mem_cons, Ne.symm he, false_or, ih]
      split <;> simp

theorem mem_names_add (table : Table) (ds : List Declaration) (name : String) :
    name ∈ (table.add ds).1.declarations.map Declaration.name ↔
      name ∈ table.declarations.map Declaration.name ∨ name ∈ ds.map Declaration.name := by
  induction ds generalizing table with
  | nil => simp [add]
  | cons d rest ih =>
    have h := ih { table with declarations := (insert table.policy d table.declarations).1 }
    simp only [add, h, names_insert, List.map_cons, List.mem_cons]
    split
    · next hm =>
      constructor
      · exact fun h => h.imp id .inr
      · rintro (h | rfl | h)
        · exact .inl h
        · exact .inl hm
        · exact .inr h
    · simp [or_assoc]

theorem nodup_add (table : Table) (ds : List Declaration) (h : (table.declarations.map Declaration.name).Nodup) :
    ((table.add ds).1.declarations.map Declaration.name).Nodup := by
  induction ds generalizing table with
  | nil => exact h
  | cons d rest ih =>
    refine ih { table with declarations := (insert table.policy d table.declarations).1 } ?_
    rw [names_insert]
    split
    · exact h
    · next hm => exact List.nodup_append.mpr ⟨h, by simp, fun a ha b hb he => hm (by simp_all)⟩

/-- No name is declared twice in a table. -/
theorem nodup_collect (policy : NamespacePolicy) (file : SourceFile) :
    ((collect policy file).1.declarations.map Declaration.name).Nodup :=
  nodup_add _ _ (by simp)

/-- The names of a table are those of the declarations that were collected. -/
theorem mem_names_collect {policy : NamespacePolicy} {file : SourceFile} {name : String} :
    name ∈ (collect policy file).1.declarations.map Declaration.name ↔
      name ∈ (visited policy [] file.statements).map Declaration.name := by
  rw [collect, mem_names_add]
  simp

theorem get?_of_mem {table : Table} (h : (table.declarations.map Declaration.name).Nodup) {d : Declaration}
    (hd : d ∈ table.declarations) : table.get? d.name = some d := by
  cases hg : table.get? d.name with
  | none => exact absurd (List.mem_map_of_mem hd) (get?_eq_none.mp hg)
  | some e =>
    obtain ⟨hn, he⟩ := name_of_get? hg
    rw [List.inj_on_of_nodup_map h he hd hn]

end Table

end TypeSchema
