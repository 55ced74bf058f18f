import Mathlib.Data.List.MinMax
import TypeSchema.Proofs.DeclarationOrder

namespace TypeSchema

/-- Of declarations of one flat name the one of the lowest rank is kept: the shallowest, where they are hoisted. -/
def NamespacePolicy.rank (policy : NamespacePolicy) (d : Declaration) : Nat :=
  if policy = .hoist then d.scope.length else 0

theorem NamespacePolicy.rank_lt {policy : NamespacePolicy} {d e : Declaration} :
    policy.rank d < policy.rank e ↔ policy = .hoist ∧ d.scope.length < e.scope.length := by
  unfold rank
  split
  · next h => simp [h]
  · next h => simp [h]

namespace Table

/-- One declaration more is one more in the table, or one that has to give way. -/
theorem insert_perm (policy : NamespacePolicy) (d : Declaration) (ds : List Declaration) :
    (d :: ds).Perm ((insert policy d ds).2.toList ++ (insert policy d ds).1) := by
  induction ds with
  | nil => exact .refl _
  | cons e rest ih =>
    rw [insert]
    split
    · split
      · exact .swap e d rest
      · exact .refl _
    · calc
        (d :: e :: rest).Perm (e :: d :: rest) := .swap e d rest
        List.Perm _ (e :: ((insert policy d rest).2.toList ++ (insert policy d rest).1)) := ih.cons e
        List.Perm _ ((insert policy d rest).2.toList ++ e :: (insert policy d rest).1) := List.perm_middle.symm

/-- What a name leads to changes only with a declaration of that name, and only if there was none before or that one
ranks higher. -/
theorem find?_insert (policy : NamespacePolicy) (d : Declaration) (ds : List Declaration) (name : String) :
    (insert policy d ds).1.find? (·.name = name) =
      if d.name = name then
        match ds.find? (·.name = name) with
        | none => some d
        | some e => if policy.rank d < policy.rank e then some d else some e
      else ds.find? (·.name = name) := by
  induction ds with
  | nil => by_cases hd : d.name = name <;> simp [insert, hd]
  | cons e rest ih =>
    rw [insert]
    by_cases he : e.name = d.name
    · rw [if_pos he]
      by_cases hd : d.name = name
      · simp only [NamespacePolicy.rank_lt]
        split <;> simp_all
      · split <;> simp_all
    · rw [if_neg he]
      simp only [List.find?_cons, ih]
      by_cases hname : e.name = name
      · have hd : d.name ≠ name := fun h => he (hname.trans h.symm)
        simp [hname, hd]
      · simp [hname]

/-- Whatever is added is in the table or had to give way, and this is reported where declarations are hoisted. -/
theorem add_perm (table : Table) (ds : List Declaration) : ∃ lost : List Declaration,
    (ds ++ table.declarations).Perm (lost ++ (table.add ds).1.declarations) ∧
      (table.add ds).2 = if table.policy = .hoist then lost.map Declaration.dottedName else [] := by
  induction ds generalizing table with
  | nil => exact ⟨[], .refl _, by simp [add]⟩
  | cons d rest ih =>
    have hstep := insert_perm table.policy d table.declarations
    rcases hinsert : insert table.policy d table.declarations with ⟨kept, gone⟩
    rw [hinsert] at hstep
    obtain ⟨lost, hperm, hreported⟩ := ih { table with declarations := kept }
    simp only [add, hinsert, hreported]
    refine ⟨gone.toList ++ lost, ?_, ?_⟩
    · rw [List.append_assoc]
      calc
        (d :: rest ++ table.declarations).Perm (rest ++ d :: table.declarations) := List.perm_middle.symm
        List.Perm _ (rest ++ (gone.toList ++ kept)) := hstep.append_left rest
        List.Perm _ (gone.toList ++ (rest ++ kept)) := List.perm_append_comm_assoc rest gone.toList kept
        List.Perm _ _ := hperm.append_left gone.toList
    · split
      · cases gone <;> rfl
      · rfl

/-- A name leads to the first declaration of that name that no other one ranks below. -/
theorem get?_add {table : Table} {seen : List Declaration}
    (h : ∀ name, table.get? name = (seen.filter (·.name = name)).argmin table.policy.rank) (ds : List Declaration)
    (name : String) :
    (table.add ds).1.get? name = ((seen ++ ds).filter (·.name = name)).argmin table.policy.rank := by
  induction ds generalizing table seen with
  | nil => simpa [add] using h name
  | cons d rest ih =>
    have hstep : ∀ name, (insert table.policy d table.declarations).1.find? (·.name = name) =
        ((seen ++ [d]).filter (·.name = name)).argmin table.policy.rank := by
      intro name
      have hget : table.declarations.find? (·.name = name) = _ := h name
      rw [find?_insert, hget, List.filter_append]
      by_cases hd : d.name = name
      · rw [if_pos hd]
        simp only [hd, decide_true, List.filter_cons_of_pos, List.filter_nil, List.argmin_concat]
        cases (seen.filter (·.name = name)).argmin table.policy.rank <;> rfl
      · rw [if_neg hd]
        simp [hd]
    rw [List.append_cons]
    exact @ih { table with declarations := (insert table.policy d table.declarations).1 } _ hstep

/-- What is collected under a name is the first declaration of the lowest rank that is visited under it. -/
theorem get?_collect (policy : NamespacePolicy) (file : SourceFile) (name : String) :
    (collect policy file).1.get? name =
      ((visited policy [] file.statements).filter (·.name = name)).argmin policy.rank :=
  @get?_add ⟨policy, []⟩ [] (fun _ => rfl) _ name

/-- What is visited is collected, or had to give way to a declaration of its name. -/
theorem collect_perm (policy : NamespacePolicy) (file : SourceFile) : ∃ lost : List Declaration,
    (visited policy [] file.statements).Perm (lost ++ (collect policy file).1.declarations) ∧
      (collect policy file).2 = (if policy = .hoist then lost.map Declaration.dottedName else []) ∧
      ∀ d ∈ lost, d.name ∈ (collect policy file).1.declarations.map Declaration.name := by
  obtain ⟨lost, hperm, hreported⟩ := add_perm ⟨policy, []⟩ (visited policy [] file.statements)
  rw [List.append_nil] at hperm
  refine ⟨lost, hperm, hreported, fun d hd => mem_names_collect.mpr ?_⟩
  exact List.mem_map_of_mem (hperm.mem_iff.mpr (List.mem_append_left _ hd))

/-- All that is visited is collected or reported just where declarations are hoisted, or have distinct names. -/
theorem length_collect (policy : NamespacePolicy) (file : SourceFile) :
    (visited policy [] file.statements).length =
        (collect policy file).1.declarations.length + (collect policy file).2.length ↔
      policy = .hoist ∨ file.Distinct policy := by
  obtain ⟨lost, hperm, hreported, hnames⟩ := collect_perm policy file
  have hlength := hperm.length_eq
  rw [List.length_append] at hlength
  by_cases hhoist : policy = .hoist
  · rw [if_pos hhoist] at hreported
    refine iff_of_true ?_ (.inl hhoist)
    rw [hreported, List.length_map]
    omega
  · rw [if_neg hhoist] at hreported
    rw [hreported, List.length_nil, or_iff_right hhoist, SourceFile.Distinct, (hperm.map Declaration.name).nodup_iff,
      List.map_append]
    constructor
    · intro h
      obtain rfl := List.length_eq_zero_iff.mp (show lost.length = 0 by omega)
      exact nodup_collect policy file
    · intro h
      -- what had to give way would have the name of another
      cases lost with
      | nil => simpa using hlength
      | cons d rest =>
        have hkept := hnames d List.mem_cons_self
        exact absurd rfl ((List.nodup_append.mp h).2.2 d.name List.mem_cons_self d.name hkept)

end Table

namespace SourceFile

/-- What was hoisted away is reported as not converted. -/
theorem reported_of_convert {file : SourceFile} {source : String} {options : ReadOptions} {c : Conversion Document}
    (h : (file.convert source options).result = .ok c) :
    (Table.collect options.namespaces file).2 <+: c.notConverted := by
  obtain ⟨-, p, log, hends, rfl⟩ := convert_ok_iff.mp h
  obtain ⟨-, hrounds⟩ := Convert.progress_ends_iff.mp hends
  exact (List.prefix_append _ _).trans (Convert.rounds_extends hrounds).2

/-- Of the declarations that are visited and have one flat name, one is kept: the first one, or the first one of the
shallowest where declarations are hoisted. Only there are the others reported; so the declarations that are kept and
those that are reported are all that are visited just where they are hoisted, or have distinct names. -/
theorem convert_collects (file : SourceFile) (source : String) (options : ReadOptions) :
    let policy := options.namespaces
    let all := visited policy [] file.statements
    let table := (Table.collect policy file).1
    let reported := (Table.collect policy file).2
    (∀ name, table.get? name = (all.filter (·.name = name)).argmin policy.rank) ∧
    (∃ lost : List Declaration, all.Perm (lost ++ table.declarations) ∧
      reported = (if policy = .hoist then lost.map Declaration.dottedName else []) ∧
      ∀ d ∈ lost, d.name ∈ table.declarations.map Declaration.name) ∧
    (all.length = table.declarations.length + reported.length ↔ policy = .hoist ∨ file.Distinct policy) ∧
    ∀ c, (file.convert source options).result = .ok c → reported <+: c.notConverted := by
  intro policy all table reported
  exact ⟨Table.get?_collect policy file, Table.collect_perm policy file, Table.length_collect policy file,
    fun c => reported_of_convert⟩

/-- Two interfaces of one name, and two types that the names of their namespaces make one. -/
theorem convert_collects_merged :
    let file : SourceFile := ⟨[
      .interface {
        name := "A", exported := true
        members := [.property "x" false (some (.keyword .string)) none none] },
      .interface {
        name := "A", exported := true
        members := [.property "y" false (some (.keyword .number)) none none] },
      .typeAlias { name := "A_B", exported := true, value := .keyword .string },
      .namespaced ["A"] true [.typeAlias { name := "B", exported := true, value := .keyword .number }] none]⟩
    let visits (policy : NamespacePolicy) := (visited policy [] file.statements).length
    let keeps (policy : NamespacePolicy) := (Table.collect policy file).1.declarations.length
    let reports (policy : NamespacePolicy) := (Table.collect policy file).2
    visits .ignore ≠ keeps .ignore + (reports .ignore).length ∧
      visits .joinUnderscore ≠ keeps .joinUnderscore + (reports .joinUnderscore).length ∧
      visits .hoist = keeps .hoist + (reports .hoist).length ∧ reports .hoist = ["A"] ∧
      ∃ c, (file.convert "" { namespaces := .hoist }).result = .ok c ∧ reports .hoist <+: c.notConverted := by
  intro file visits keeps reports
  obtain ⟨-, -, hignore, -⟩ := file.convert_collects "" { namespaces := .ignore }
  obtain ⟨-, -, hjoin, -⟩ := file.convert_collects "" { namespaces := .joinUnderscore }
  obtain ⟨-, -, hhoist, hreported⟩ := file.convert_collects "" { namespaces := .hoist }
  obtain ⟨c, hc, -⟩ : ∃ c, (file.convert "" { namespaces := .hoist }).result = .ok c ∧
      c.converted = ["A", "A_B", "B"] := Conversion.exists_of_names (by decide +kernel)
  exact ⟨mt hignore.mp (by decide), mt hjoin.mp (by decide), hhoist.mpr (.inl rfl), by decide, c, hc, hreported c hc⟩

end SourceFile

end TypeSchema
