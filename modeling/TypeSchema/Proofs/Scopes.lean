import TypeSchema.Proofs.Hoisting
import TypeSchema.Proofs.Namespaces

namespace TypeSchema

def DeclarationBody.localName : DeclarationBody → String
  | .interface i => i.name
  | .typeAlias a => a.name

/-- A name that holds no dot. -/
def Undotted (name : String) : Prop := '.' ∉ name.toList

instance (name : String) : Decidable (Undotted name) := inferInstanceAs (Decidable ('.' ∉ name.toList))

/-- Names without dots are told apart by what they are joined to. -/
theorem joinTexts_injective {names others : List String} (hne : names ≠ []) (hne' : others ≠ [])
    (h : ∀ name ∈ names, Undotted name) (h' : ∀ name ∈ others, Undotted name)
    (heq : joinTexts "." names = joinTexts "." others) : names = others := by
  have hdot : ".".toList = ['.'] := rfl
  have hmap : names.map String.toList = others.map String.toList := by
    rw [← splitOn_joinTexts hdot hne h, ← splitOn_joinTexts hdot hne' h', heq]
  exact List.map_injective_iff.mpr (fun _ _ => String.toList_inj.mp) hmap

namespace Table

theorem joinDot_reads : NamespacePolicy.joinDot ≠ .ignore := by decide

theorem enclosing_concat (scope : List String) (segment : String) :
    enclosing (scope ++ [segment]) = (scope ++ [segment]) :: enclosing scope := by
  have hmap : (List.range (scope.length + 1)).reverse.map (scope ++ [segment]).take =
      (List.range (scope.length + 1)).reverse.map scope.take := by
    refine List.map_congr_left fun n hn => List.take_append_of_le_length ?_
    simpa [Nat.lt_succ_iff] using hn
  rw [enclosing, List.length_append, List.length_singleton, List.range_succ, List.reverse_append, List.map_append, hmap]
  simp [enclosing]

/-- What is found is found in the innermost namespace where there is something. -/
theorem findSome?_enclosing {α : Type} {f : List String → Option α} {scope : List String} {a : α}
    (h : (enclosing scope).findSome? f = some a) : ∃ outer, outer <+: scope ∧ f outer = some a ∧
      ∀ other, other <+: scope → outer.length < other.length → f other = none := by
  induction scope using List.reverseRecOn with
  | nil =>
    refine ⟨[], List.prefix_rfl, by simpa [enclosing] using h, fun other ho hlt => ?_⟩
    rw [List.prefix_nil.mp ho] at hlt
    exact absurd hlt (Nat.lt_irrefl 0)
  | append_singleton scope segment ih =>
    rw [enclosing_concat, List.findSome?_cons] at h
    cases hf : f (scope ++ [segment]) with
    | some b =>
      rw [hf] at h
      refine ⟨scope ++ [segment], List.prefix_rfl, hf.trans h, fun other ho hlt => ?_⟩
      exact absurd ho.length_le (Nat.not_le_of_lt hlt)
    | none =>
      rw [hf] at h
      obtain ⟨outer, hp, hfound, hinner⟩ := ih h
      refine ⟨outer, hp.trans (List.prefix_append _ _), hfound, fun other ho hlt => ?_⟩
      rcases List.prefix_concat_iff.mp ho with rfl | ho
      · exact hf
      · exact hinner other ho hlt

theorem findSome?_enclosing_eq_none {α : Type} {f : List String → Option α} {scope : List String} :
    (enclosing scope).findSome? f = none ↔ ∀ outer, outer <+: scope → f outer = none := by
  induction scope using List.reverseRecOn with
  | nil => simp [enclosing]
  | append_singleton scope segment ih =>
    simp only [enclosing_concat, List.findSome?_cons, List.prefix_concat_iff]
    cases hf : f (scope ++ [segment]) with
    | some b =>
      refine iff_of_false (by simp) fun h => ?_
      rw [h _ (.inl rfl)] at hf
      cases hf
    | none =>
      rw [ih]
      constructor
      · rintro h _ (rfl | ho)
        · exact hf
        · exact h _ ho
      · exact fun h outer ho => h outer (.inr ho)

end Table

namespace SourceFile

variable {file : SourceFile} {scope : List String} {name : String}

/-- A declaration of this name stands in these namespaces. -/
def Declares (file : SourceFile) (scope : List String) (name : String) : Prop :=
  ∃ body, Stands file.statements scope body ∧ body.localName = name

/-- No namespace around a declaration and no declaration has a dot in its name. -/
def AllUndotted (file : SourceFile) : Prop :=
  ∀ scope body, Stands file.statements scope body → ∀ name ∈ scope ++ [body.localName], Undotted name

theorem allUndotted_iff : file.AllUndotted ↔
    ∀ d ∈ visited .joinDot [] file.statements, ∀ name ∈ d.scope ++ [d.localName], Undotted name := by
  simp only [AllUndotted, Table.stands_iff Table.joinDot_reads]
  constructor
  · exact fun h d hd => h d.scope d.body ⟨d, hd, rfl, rfl⟩
  · rintro h _ _ ⟨d, hd, rfl, rfl⟩
    exact h d hd

/-- The longest beginning of a scope that declares a name. -/
structure Innermost (file : SourceFile) (scope : List String) (name : String) (outer : List String) : Prop where
  around : outer <+: scope
  declares : file.Declares outer name
  longest : ∀ other, other <+: scope → file.Declares other name → other.length ≤ outer.length

/-- What a name means inside a scope: the declaration in the innermost namespace that declares it, under its flat name;
itself if there is none. -/
inductive Means (file : SourceFile) (scope : List String) (name : String) : String → Prop
  | declared {outer : List String} : file.Innermost scope name outer →
      Means file scope name (joinTexts "." (outer ++ [name]))
  | free : (∀ outer, outer <+: scope → ¬file.Declares outer name) → Means file scope name name

theorem Innermost.unique {outer other : List String} (h : file.Innermost scope name outer)
    (h' : file.Innermost scope name other) : outer = other := by
  have hle := h.longest other h'.around h'.declares
  have hge := h'.longest outer h.around h.declares
  rw [List.prefix_iff_eq_take.mp h.around, List.prefix_iff_eq_take.mp h'.around, Nat.le_antisymm hge hle]

/-- A name means one thing at each place. -/
theorem Means.unique {target other : String} (h : file.Means scope name target) (h' : file.Means scope name other) :
    target = other := by
  cases h with
  | declared hin =>
    cases h' with
    | declared hin' => rw [hin.unique hin']
    | free hnone => exact absurd hin.declares (hnone _ hin.around)
  | free hnone =>
    cases h' with
    | declared hin' => exact absurd hin'.declares (hnone _ hin'.around)
    | free _ => rfl

/-- A name means something at every place, and one thing only. -/
theorem existsUnique_means (file : SourceFile) (scope : List String) (name : String) :
    ∃! target, file.Means scope name target := by
  classical
  suffices h : ∃ target, file.Means scope name target by
    obtain ⟨target, hmeans⟩ := h
    exact ⟨target, hmeans, fun other hother => hother.unique hmeans⟩
  cases hf : (Table.enclosing scope).findSome? fun outer => if file.Declares outer name then some outer else none with
  | some found =>
    obtain ⟨outer, hp, hfound, hinner⟩ := Table.findSome?_enclosing hf
    have hdeclares : file.Declares outer name := by
      by_contra hnot
      simp [hnot] at hfound
    refine ⟨_, .declared ⟨hp, hdeclares, fun other ho hd => ?_⟩⟩
    by_contra hlt
    simpa [hd] using hinner other ho (Nat.lt_of_not_le hlt)
  | none =>
    rw [Table.findSome?_enclosing_eq_none] at hf
    exact ⟨name, .free fun outer ho hd => by simpa [hd] using hf outer ho⟩

end SourceFile

namespace Table

variable {file : SourceFile} {scope : List String} {name : String} {d : Declaration}

/-- What a flat name leads to stands in the file, and goes by the names of its namespaces and its own. -/
theorem stands_of_get? (h : (collect .joinDot file).1.get? name = some d) :
    Stands file.statements d.scope d.body ∧ name = joinTexts "." (d.scope ++ [d.localName]) := by
  rw [get?_collect] at h
  obtain ⟨hd, hname⟩ := List.mem_filter.mp (List.argmin_mem h)
  refine ⟨(stands_iff joinDot_reads file _ _).mpr ⟨d, hd, rfl, rfl⟩, ?_⟩
  rw [← of_decide_eq_true hname]
  exact (stands_of_mem_visited hd).1

/-- A flat name without dots in its parts leads to the declaration of its last part in its other parts. -/
theorem get?_joined (hfile : file.AllUndotted) (hscope : ∀ segment ∈ scope, Undotted segment) (hname : Undotted name)
    (h : (collect .joinDot file).1.get? (joinTexts "." (scope ++ [name])) = some d) :
    d.scope = scope ∧ d.localName = name := by
  obtain ⟨hstands, heq⟩ := stands_of_get? h
  have hparts : scope ++ [name] = d.scope ++ [d.localName] := by
    refine joinTexts_injective (by simp) (by simp) (fun s hs => ?_) (hfile _ _ hstands) heq
    rcases List.mem_append.mp hs with hs | hs
    · exact hscope s hs
    · exact List.mem_singleton.mp hs ▸ hname
  obtain ⟨hs, hn⟩ := List.append_inj' hparts rfl
  exact ⟨hs.symm, (List.singleton_inj.mp hn).symm⟩

theorem declares_of_get? (hfile : file.AllUndotted) (hscope : ∀ segment ∈ scope, Undotted segment)
    (hname : Undotted name) (h : (collect .joinDot file).1.get? (joinTexts "." (scope ++ [name])) = some d) :
    file.Declares scope name := by
  obtain ⟨rfl, rfl⟩ := get?_joined hfile hscope hname h
  exact ⟨d.body, (stands_of_get? h).1, rfl⟩

theorem not_declares_of_get? (h : (collect .joinDot file).1.get? (joinTexts "." (scope ++ [name])) = none) :
    ¬file.Declares scope name := by
  rintro ⟨body, hstands, rfl⟩
  obtain ⟨d, hd, rfl, rfl⟩ := (stands_iff joinDot_reads file _ _).mp hstands
  rw [get?_eq_none, mem_names_collect] at h
  refine h (List.mem_map.mpr ⟨d, hd, ?_⟩)
  exact (stands_of_mem_visited hd).1

@[simp] theorem policy_add (table : Table) (ds : List Declaration) : (table.add ds).1.policy = table.policy := by
  induction ds generalizing table with
  | nil => rfl
  | cons d rest ih => exact ih _

theorem resolve?_joinDot (file : SourceFile) (scope : List String) (name : String) :
    (collect .joinDot file).1.resolve? scope name = (enclosing scope).findSome? fun outer =>
      (collect .joinDot file).1.get? (joinTexts "." (outer ++ [name])) := by
  have hp : (collect .joinDot file).1.policy = .joinDot := policy_add _ _
  rw [resolve?, hp]
  rfl

/-- What a name is resolved to is its declaration in the innermost namespace that has one. -/
theorem innermost_of_resolve? (hfile : file.AllUndotted) (hscope : ∀ segment ∈ scope, Undotted segment)
    (hname : Undotted name) (h : (collect .joinDot file).1.resolve? scope name = some d) :
    file.Innermost scope name d.scope ∧ d.localName = name := by
  rw [resolve?_joinDot] at h
  obtain ⟨outer, hp, hget, hinner⟩ := findSome?_enclosing h
  have houter : ∀ segment ∈ outer, Undotted segment := fun s hs => hscope s (hp.subset hs)
  obtain ⟨rfl, rfl⟩ := get?_joined hfile houter hname hget
  refine ⟨⟨hp, declares_of_get? hfile houter hname hget, fun other ho hd => ?_⟩, rfl⟩
  by_contra hlt
  exact not_declares_of_get? (hinner other ho (Nat.lt_of_not_le hlt)) hd

/-- A name that is not resolved is not declared in any namespace around. -/
theorem not_declares_of_resolve? (h : (collect .joinDot file).1.resolve? scope name = none) (outer : List String)
    (ho : outer <+: scope) : ¬file.Declares outer name := by
  rw [resolve?_joinDot, findSome?_enclosing_eq_none] at h
  exact not_declares_of_get? (h outer ho)

end Table

end TypeSchema
