namespace TypeSchema

abbrev Entries (α : Type) := List (String × α)

namespace Entries

variable {α : Type}

def get? (name : String) : Entries α → Option α
  | [] => none
  | (key, value) :: rest => if key = name then some value else get? name rest

/-- The value in place of the one under that name, or at the end. -/
def put (name : String) (value : α) : Entries α → Entries α
  | [] => [(name, value)]
  | (key, old) :: rest =>
    if key = name then (name, value) :: rest else (key, old) :: put name value rest

/-- Every entry of `later` put in turn: known names keep their place and take the later value. -/
def extend (entries later : Entries α) : Entries α :=
  later.foldl (fun all entry => put entry.1 entry.2 all) entries

/-- Each name once, at its first place and with its last value. -/
def distinct (entries : Entries α) : Entries α := extend [] entries

def names (entries : Entries α) : List String := entries.map Prod.fst

theorem get?_put_self (name : String) (value : α) (entries : Entries α) :
    (put name value entries).get? name = some value := by
  induction entries with
  | nil => simp [put, get?]
  | cons entry rest ih =>
    by_cases h : entry.1 = name
    · simp [put, get?, h]
    · simpa [put, get?, h] using ih

theorem get?_put_of_ne {name other : String} (h : name ≠ other) (value : α) (entries : Entries α) :
    (put name value entries).get? other = entries.get? other := by
  induction entries with
  | nil => simp [put, get?, h]
  | cons entry rest ih =>
    by_cases hk : entry.1 = name
    · simp [put, get?, hk, h]
    · by_cases ho : entry.1 = other
      · simp [put, get?, ho, h.symm]
      · simpa [put, get?, hk, ho] using ih

/-- A known name keeps its place; a new one comes last. -/
theorem names_put (name : String) (value : α) (entries : Entries α) :
    (put name value entries).names =
      if name ∈ entries.names then entries.names else entries.names ++ [name] := by
  induction entries with
  | nil => simp [put, names]
  | cons entry rest ih =>
    by_cases h : entry.1 = name
    · simp [put, names, h]
    · have hn : name ≠ entry.1 := fun e => h e.symm
      simp only [names] at ih
      by_cases hm : name ∈ rest.map Prod.fst
      · simp [put, names, h, hn, hm, ih]
      · simp [put, names, h, hn, hm, ih]

/-- A new name comes last. -/
theorem put_of_not_mem {name : String} {entries : Entries α} (h : name ∉ entries.names) (value : α) :
    put name value entries = entries ++ [(name, value)] := by
  induction entries with
  | nil => rfl
  | cons entry rest ih =>
    simp only [names, List.map_cons, List.mem_cons, not_or] at h
    rw [put, if_neg (Ne.symm h.1), ih h.2]
    rfl

end Entries

end TypeSchema
