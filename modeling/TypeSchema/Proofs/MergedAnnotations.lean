import TypeSchema.Proofs.Rereading

namespace TypeSchema.Annotations

theorem mem_distinctTexts {t : String} {texts : List String} : t ∈ distinctTexts texts ↔ t ∈ texts ∧ t ≠ "" := by
  simp [distinctTexts, List.mem_eraseDups]

/-- Later texts add those that did not occur before. -/
theorem distinctTexts_append (texts more : List String) :
    distinctTexts (texts ++ more) = distinctTexts texts ++ distinctTexts (more.filter (· ∉ texts)) := by
  have hnew : (more.filter (· ≠ "")).removeAll (texts.filter (· ≠ "")) = (more.filter (· ∉ texts)).filter (· ≠ "") := by
    rw [List.removeAll, List.filter_filter, List.filter_filter]
    apply List.filter_congr
    intro t _
    by_cases ht : t = "" <;> simp [ht]
  rw [distinctTexts, List.filter_append, List.eraseDups_append, hnew, distinctTexts, distinctTexts]

theorem distinctTexts_append_self (texts : List String) : distinctTexts (texts ++ texts) = distinctTexts texts := by
  have hnone : texts.filter (· ∉ texts) = [] := List.filter_eq_nil_iff.mpr fun t ht => by simpa using ht
  rw [distinctTexts_append, hnone]
  exact List.append_nil _

/-- One more text is added at the end, unless it is empty or was there before. -/
theorem distinctTexts_concat (texts : List String) (t : String) :
    distinctTexts (texts ++ [t]) = distinctTexts texts ++ if t = "" ∨ t ∈ texts then [] else [t] := by
  rw [distinctTexts_append]
  congr 1
  by_cases hmem : t ∈ texts
  · simp [hmem, distinctTexts]
  · by_cases ht : t = "" <;> simp [hmem, ht, distinctTexts, List.eraseDups_cons]

/-- The texts stand in the order in which they first occur. -/
theorem pairwise_idxOf_distinctTexts (texts : List String) :
    (distinctTexts texts).Pairwise fun t u => texts.idxOf t < texts.idxOf u := by
  -- from the end, as one more text neither moves those before it nor comes before them
  induction texts using List.reverseRecOn with
  | nil => exact .nil
  | append_singleton texts last ih =>
    have hkeep {t : String} (ht : t ∈ distinctTexts texts) : (texts ++ [last]).idxOf t = texts.idxOf t :=
      List.idxOf_append_of_mem (mem_distinctTexts.mp ht).1
    rw [distinctTexts_concat, List.pairwise_append]
    refine ⟨ih.imp_of_mem fun ht hu hlt => ?_, ?_, ?_⟩
    · rwa [hkeep ht, hkeep hu]
    · split
      · exact .nil
      · exact List.pairwise_singleton ..
    · intro t ht u hu
      split at hu
      · cases hu
      · next hnew =>
        obtain rfl := List.mem_singleton.mp hu
        simp only [not_or] at hnew
        rw [hkeep ht, List.idxOf_append_of_notMem hnew.2]
        exact Nat.lt_add_right _ (List.idxOf_lt_length_iff.mpr (mem_distinctTexts.mp ht).1)

/-- The texts of some sets, in their order. -/
def occurring (field : Annotations → Option OneOrMany) (sets : List Annotations) : List String :=
  sets.flatMap fun a => listed (field a)

/-- What is listed of the texts that occur, namely all that are not empty: nothing, one text by itself, or several
texts, each of them once and in the order in which they first occur. -/
inductive Lists (all : List String) : Option OneOrMany → Prop
  | absent (none_filled : ∀ t ∈ all, t = "") : Lists all none
  | one (t : String) (filled : ∀ u, u = t ↔ u ∈ all ∧ u ≠ "") : Lists all (some (.one t))
  | many (texts : List String) (several : 2 ≤ texts.length) (distinct : texts.Nodup)
      (filled : ∀ t, t ∈ texts ↔ t ∈ all ∧ t ≠ "")
      (order : texts.Pairwise fun t u => all.idxOf t < all.idxOf u) : Lists all (some (.many texts))

theorem lists_distinctTexts (all : List String) : Lists all (OneOrMany.ofList? (distinctTexts all)) := by
  have hmem (t : String) : t ∈ distinctTexts all ↔ t ∈ all ∧ t ≠ "" := mem_distinctTexts
  have hdistinct := nodup_distinctTexts all
  have horder := pairwise_idxOf_distinctTexts all
  generalize distinctTexts all = texts at hmem hdistinct horder
  match texts with
  | [] => exact .absent fun t ht => by simpa [ht] using hmem t
  | [t] => exact .one t fun u => by rw [← hmem, List.mem_singleton]
  | t :: u :: rest => exact .many _ (by simp) hdistinct hmem horder

theorem joined_append_self (separator : String) (texts : List String) :
    joined separator (texts ++ texts) = joined separator texts := by
  rw [joined, distinctTexts_append_self, joined]

theorem tight_joined {separator s : String} {texts : List String} (h : joined separator texts = some s) :
    s.toList ≠ [] ∧ Tight s.toList := by
  rw [joined] at h
  split at h
  · cases h
  · next hne =>
    obtain rfl := Option.some.inj h
    refine ⟨by simpa using hne, ?_⟩
    rw [trimmed, String.toList_ofList]
    exact tight_trim _

/-- Annotations as merging leaves them: texts with no blank at either end, and lists of several texts, none of them
empty or twice in the list. -/
structure Merged (a : Annotations) : Prop where
  title : ∀ s ∈ a.title, s.toList ≠ [] ∧ Tight s.toList
  description : ∀ s ∈ a.description, s.toList ≠ [] ∧ Tight s.toList
  examples : ∀ texts ∈ a.examples, texts.Proper ∧ ∀ s ∈ texts.toList, s.toList ≠ []
  default : ∀ v ∈ a.defaultValue, ∃ s, v = .string s ∧ s.toList ≠ [] ∧ Tight s.toList
  see : ∀ texts ∈ a.see, texts.Proper ∧ ∀ s ∈ texts.toList, s.toList ≠ []

theorem merge_singleton (a : Annotations) : merge [a] = {
    title := joined ", " a.title.toList
    description := joined "\n" a.description.toList
    examples := OneOrMany.ofList? (distinctTexts (listed a.examples))
    defaultValue := (joined "\n" (a.defaultValue.map defaultText).toList).map .string
    see := OneOrMany.ofList? (distinctTexts (listed a.see)) } := by
  have hsingle {α β : Type} (f : α → Option β) (x : α) : [x].filterMap f = (f x).toList := by
    cases h : f x <;> simp [h]
  rw [merge, hsingle, hsingle, hsingle]
  simp only [List.flatMap_cons, List.flatMap_nil, List.append_nil]

theorem joined_toList {separator : String} {text : Option String} (h : ∀ s ∈ text, s.toList ≠ [] ∧ Tight s.toList) :
    joined separator text.toList = text := by
  cases text with
  | none => simp [joined, distinctTexts, joinTexts, trimmed, trim, trimStart, trimEnd]
  | some s => exact joined_tight separator (h s rfl).1 (h s rfl).2

theorem ofList?_distinctTexts_listed {texts : Option OneOrMany}
    (h : ∀ list ∈ texts, list.Proper ∧ ∀ s ∈ list.toList, s.toList ≠ []) :
    OneOrMany.ofList? (distinctTexts (listed texts)) = texts := by
  have hproper : ∀ list ∈ texts, list.Proper := fun list hl => (h list hl).1
  have hfilled : ∀ s ∈ listed texts, s.toList ≠ [] := by
    intro s hs
    cases texts with
    | none => cases hs
    | some list => exact (h list rfl).2 s hs
  rw [distinctTexts_of_nodup (nodup_listed hproper) hfilled, DocComment.ofList?_listed hproper]

theorem proper_distinctTexts (texts : List String) :
    ∀ list ∈ OneOrMany.ofList? (distinctTexts texts), list.Proper ∧ ∀ s ∈ list.toList, s.toList ≠ [] := by
  intro list hl
  obtain ⟨hproper, heq⟩ := proper_ofList? (nodup_distinctTexts texts) list hl
  refine ⟨hproper, fun s hs => ?_⟩
  rw [heq] at hs
  simpa using (mem_distinctTexts.mp hs).2

theorem merged_merge (sets : List Annotations) : (merge sets).Merged := by
  rw [merge]
  constructor <;> dsimp only
  case title | description => exact fun s => tight_joined
  case examples | see => exact proper_distinctTexts _
  case default =>
    intro v hv
    obtain ⟨s, hs, rfl⟩ := Option.map_eq_some_iff.mp hv
    exact ⟨s, rfl, tight_joined hs⟩

/-- Annotations are left as they are just if they are what merging leaves. -/
theorem merge_singleton_eq_iff {a : Annotations} : merge [a] = a ↔ a.Merged := by
  constructor
  · intro h
    rw [← h]
    exact merged_merge [a]
  · intro h
    have hdefault : (joined "\n" (a.defaultValue.map defaultText).toList).map Json.string = a.defaultValue := by
      cases hv : a.defaultValue with
      | none => rfl
      | some v =>
        obtain ⟨s, rfl, hne, htight⟩ := h.default v hv
        exact congrArg (Option.map Json.string) (joined_tight "\n" hne htight)
    rw [merge_singleton, joined_toList h.title, joined_toList h.description, hdefault,
      ofList?_distinctTexts_listed h.examples, ofList?_distinctTexts_listed h.see]

theorem merge_append_self (sets : List Annotations) : merge (sets ++ sets) = merge sets := by
  simp only [merge, List.filterMap_append, List.flatMap_append, joined_append_self, distinctTexts_append_self]

/-- Merging again changes nothing, and neither does merging the same sets twice over. Examples and links are what is
listed of the texts in all sets. -/
theorem merge_normal_form (sets : List Annotations) :
    merge [merge sets] = merge sets ∧ merge (sets ++ sets) = merge sets ∧
    Lists (occurring examples sets) (merge sets).examples ∧ Lists (occurring see sets) (merge sets).see :=
  ⟨merge_singleton_eq_iff.mpr (merged_merge sets), merge_append_self sets,
    lists_distinctTexts (occurring examples sets), lists_distinctTexts (occurring see sets)⟩

/-- A text that is empty is not listed, and one that occurs again keeps its first place. -/
example : (merge [{ see := some (.many ["b", "", "a"]) }, { see := some (.one "b") }]).see = some (.many ["b", "a"]) := by
  decide

end TypeSchema.Annotations
