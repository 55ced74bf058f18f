import TypeSchema.Json.Fields
import TypeSchema.Proofs.Nodes

namespace TypeSchema

namespace Entries

variable {α : Type}

theorem mem_put {name : String} {value : α} {entries : Entries α} {entry : String × α}
    (h : entry ∈ put name value entries) : entry = (name, value) ∨ entry ∈ entries := by
  induction entries with
  | nil => exact .inl (List.mem_singleton.mp h)
  | cons first rest ih =>
    rw [put] at h
    split at h
    · rcases List.mem_cons.mp h with h | h
      · exact .inl h
      · exact .inr (List.mem_cons_of_mem _ h)
    · rcases List.mem_cons.mp h with h | h
      · exact .inr (h ▸ List.mem_cons_self)
      · exact (ih h).imp_right (List.mem_cons_of_mem _)

theorem nodup_put {entries : Entries α} (h : entries.names.Nodup) (name : String) (value : α) :
    (put name value entries).names.Nodup := by
  rw [names_put]
  split
  · exact h
  · next hn =>
    rw [List.nodup_append]
    refine ⟨h, List.nodup_cons.mpr ⟨List.not_mem_nil, .nil⟩, fun a ha b hb he => hn ?_⟩
    obtain rfl := List.mem_singleton.mp hb
    exact he ▸ ha

theorem nodup_extend {entries : Entries α} (h : entries.names.Nodup) (later : Entries α) :
    (extend entries later).names.Nodup := by
  induction later generalizing entries with
  | nil => exact h
  | cons entry rest ih => exact ih (nodup_put h entry.1 entry.2)

theorem mem_extend {entries later : Entries α} {entry : String × α} (h : entry ∈ extend entries later) :
    entry ∈ entries ∨ entry ∈ later := by
  induction later generalizing entries with
  | nil => exact .inl h
  | cons first rest ih =>
    rcases ih h with h | h
    · rcases mem_put h with h | h
      · exact .inr (h ▸ List.mem_cons_self)
      · exact .inl h
    · exact .inr (List.mem_cons_of_mem _ h)

theorem extend_of_nodup {entries later : Entries α} (h : (entries ++ later).names.Nodup) :
    extend entries later = entries ++ later := by
  induction later generalizing entries with
  | nil => exact (List.append_nil entries).symm
  | cons entry rest ih =>
    have hnew : entry.1 ∉ entries.names := by
      intro hm
      rw [names, List.map_append, List.nodup_append] at h
      exact h.2.2 entry.1 hm entry.1 List.mem_cons_self rfl
    have happend : entries ++ [entry] ++ rest = entries ++ entry :: rest := List.append_assoc entries [entry] rest
    rw [extend, List.foldl_cons, put_of_not_mem hnew, ← extend, ← happend]
    exact ih (happend ▸ h)

theorem nodup_distinct (entries : Entries α) : (distinct entries).names.Nodup := by
  have hempty : (names ([] : Entries α)).Nodup := .nil
  exact nodup_extend hempty entries

theorem mem_of_mem_distinct {entries : Entries α} {entry : String × α} (h : entry ∈ distinct entries) :
    entry ∈ entries :=
  (mem_extend h).resolve_left List.not_mem_nil

/-- Where no name is repeated, nothing gives way. -/
theorem distinct_of_nodup {entries : Entries α} (h : entries.names.Nodup) : distinct entries = entries :=
  extend_of_nodup h

theorem get?_append (name : String) (entries later : Entries α) :
    get? name (entries ++ later) = (get? name entries).or (get? name later) := by
  induction entries with
  | nil => rfl
  | cons entry rest ih =>
    rw [List.cons_append, get?, get?, ih]
    split <;> rfl

theorem get?_eq_none {name : String} {entries : Entries α} (h : name ∉ entries.names) : get? name entries = none := by
  induction entries with
  | nil => rfl
  | cons entry rest ih =>
    rw [names, List.map_cons, List.mem_cons, not_or] at h
    rw [get?, if_neg (Ne.symm h.1), ih h.2]

theorem mem_of_get? {name : String} {value : α} {entries : Entries α} (h : entries.get? name = some value) :
    (name, value) ∈ entries := by
  induction entries with
  | nil => cases h
  | cons entry rest ih =>
    obtain ⟨key, other⟩ := entry
    rw [get?] at h
    split at h
    · next hk =>
      cases h
      rw [hk]
      exact List.mem_cons_self
    · exact List.mem_cons_of_mem _ (ih h)

end Entries

namespace Json

@[simp] theorem get?_field? (name key : String) (value : Option Json) :
    Entries.get? name (field? key value) = if key = name then value else none := by
  cases value with
  | none => simp [field?, Entries.get?]
  | some v => rfl

theorem names_field? (key : String) (value : Option Json) : (field? key value).names.Sublist [key] := by
  cases value with
  | none => exact List.nil_sublist _
  | some v => exact .refl _

/-- Among fields of distinct names, none is written twice. -/
theorem once?_of_nodup {fields : Entries Json} (h : fields.names.Nodup) (name : String) :
    once? name fields = some (fields.get? name) := by
  have hnone : ∀ {rest : Entries Json}, name ∉ rest.names → rest.filter (·.1 == name) = [] := by
    intro rest hn
    apply List.filter_eq_nil_iff.mpr
    intro entry he hname
    exact hn (beq_iff_eq.mp hname ▸ List.mem_map_of_mem he)
  induction fields with
  | nil => rfl
  | cons entry rest ih =>
    obtain ⟨key, value⟩ := entry
    obtain ⟨hkey, hrest⟩ := List.nodup_cons.mp h
    by_cases hname : key = name
    · subst hname
      rw [once?, List.filter_cons_of_pos (by exact beq_self_eq_true key), hnone hkey, Entries.get?, if_pos rfl]
    · rw [once?, List.filter_cons_of_neg (by simpa using hname), Entries.get?, if_neg hname]
      exact ih hrest

section

variable {α : Type} {fields : Entries Json} (h : fields.names.Nodup) (read : Json → Option α) (name : String)
include h

theorem required?_of_nodup : required? read name fields = (fields.get? name).bind read := by
  rw [required?, once?_of_nodup h]
  cases fields.get? name <;> rfl

theorem orElse?_of_nodup (fallback : α) :
    orElse? read fallback name fields = (fields.get? name).elim (some fallback) read := by
  rw [orElse?, once?_of_nodup h]
  cases fields.get? name <;> rfl

/-- A field that may be absent is read as it was written, if that was not `null`. -/
theorem optional?_of_nodup {written : Option α} {toJson : α → Json}
    (hfield : fields.get? name = written.map toJson)
    (hread : ∀ a ∈ written, (toJson a).isNull = false ∧ read (toJson a) = some a) :
    optional? read name fields = some written := by
  rw [optional?, once?_of_nodup h, hfield]
  cases written with
  | none => rfl
  | some a =>
    obtain ⟨hnull, ha⟩ := hread a rfl
    simp only [Option.bind_eq_bind, Option.bind_some, Option.map_some, hnull, ha, Bool.false_eq_true, if_false]

end

/-- What is read of a field that may be absent is no `null`. -/
theorem of_optional? {α : Type} {read : Json → Option α} {name : String} {fields : List (String × Json)} {a : α}
    (h : optional? read name fields = some (some a)) : ∃ value, value.isNull = false ∧ read value = some a := by
  obtain ⟨found, -, h⟩ := Option.bind_eq_some_iff.mp h
  cases found with
  | none => cases h
  | some value =>
    dsimp only at h
    split at h
    · cases h
    · next hnull =>
      obtain ⟨_, hread, ha⟩ := Option.map_eq_some_iff.mp h
      obtain rfl := Option.some.inj ha
      exact ⟨value, Bool.eq_false_iff.mpr hnull, hread⟩

/-- What is read of a field that must be there is read of some value. -/
theorem of_required? {α : Type} {read : Json → Option α} {name : String} {fields : List (String × Json)} {a : α}
    (h : required? read name fields = some a) : ∃ value, read value = some a := by
  obtain ⟨found, -, h⟩ := Option.bind_eq_some_iff.mp h
  cases found with
  | none => cases h
  | some value => exact ⟨value, h⟩

theorem of_orElse? {α : Type} {read : Json → Option α} {fallback : α} {name : String} {fields : List (String × Json)}
    {a : α} (h : orElse? read fallback name fields = some a) : a = fallback ∨ ∃ value, read value = some a := by
  obtain ⟨found, -, h⟩ := Option.bind_eq_some_iff.mp h
  cases found with
  | none => exact .inl (Option.some.inj h).symm
  | some value => exact .inr ⟨value, h⟩

theorem depthFields_append (fields later : List (String × Json)) :
    depthFields (fields ++ later) = max (depthFields fields) (depthFields later) := by
  induction fields with
  | nil => exact (Nat.zero_max _).symm
  | cons field rest ih =>
    obtain ⟨name, value⟩ := field
    rw [List.cons_append, depthFields, depthFields, ih, Nat.max_assoc]

theorem distinctFields_iff {fields : List (String × Json)} : DistinctFields fields ↔ ∀ p ∈ fields, p.2.Distinct := by
  induction fields with
  | nil => simp [DistinctFields]
  | cons field rest ih =>
    obtain ⟨name, value⟩ := field
    simp [DistinctFields, ih]

mutual

theorem Distinct.eq {value : Json} (h : value.Distinct) : value.distinct = value := by
  match value with
  | .array items => rw [distinct, DistinctItems.eq h]
  | .object fields =>
    rw [distinct, DistinctFields.eq h.2, Entries.distinct_of_nodup h.1]
  | .null | .bool _ | .number _ | .string _ => rfl

theorem DistinctItems.eq {items : List Json} (h : DistinctItems items) : distinctItems items = items := by
  match items with
  | [] => rfl
  | item :: rest => rw [distinctItems, Distinct.eq h.1, DistinctItems.eq h.2]

theorem DistinctFields.eq {fields : List (String × Json)} (h : DistinctFields fields) :
    distinctFields fields = fields := by
  match fields with
  | [] => rfl
  | (name, value) :: rest => rw [distinctFields, Distinct.eq h.1, DistinctFields.eq h.2]

end

mutual

theorem distinct_distinct (value : Json) : value.distinct.Distinct := by
  match value with
  | .array items => exact distinct_distinctItems items
  | .object fields =>
    refine ⟨Entries.nodup_distinct _, distinctFields_iff.mpr fun p hp => ?_⟩
    exact distinctFields_iff.mp (distinct_distinctFields fields) p (Entries.mem_of_mem_distinct hp)
  | .null | .bool _ | .number _ | .string _ => trivial

theorem distinct_distinctItems (items : List Json) : DistinctItems (distinctItems items) := by
  match items with
  | [] => trivial
  | item :: rest => exact ⟨distinct_distinct item, distinct_distinctItems rest⟩

theorem distinct_distinctFields (fields : List (String × Json)) : DistinctFields (distinctFields fields) := by
  match fields with
  | [] => trivial
  | (_, value) :: rest => exact ⟨distinct_distinct value, distinct_distinctFields rest⟩

end

@[simp] theorem isNull_distinct (value : Json) : value.distinct.isNull = value.isNull := by
  cases value <;> rfl

end Json

end TypeSchema
