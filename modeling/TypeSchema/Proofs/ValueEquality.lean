import Mathlib.Data.List.Forall2
import Mathlib.Data.List.Perm.Subperm
import TypeSchema.Proofs.Fields
import TypeSchema.Schema.Equality

namespace TypeSchema

section

variable {α : Type} {R S : α → α → Prop} {as bs cs : List α}

theorem forall₂_symm_of_mem (h : ∀ a ∈ as, ∀ b, R a b → R b a) (hab : List.Forall₂ R as bs) :
    List.Forall₂ R bs as := by
  have hboth := (List.forall₂_and_left as bs).mpr ⟨h, hab⟩
  apply List.Forall₂.flip
  apply hboth.imp
  intro a b hr
  exact hr.1 b hr.2

theorem forall₂_comp_of_mem (h : ∀ a ∈ as, ∀ b c, R a b → R b c → S a c) (hab : List.Forall₂ R as bs)
    (hbc : List.Forall₂ R bs cs) : List.Forall₂ S as cs := by
  induction hab generalizing cs with
  | nil =>
    cases hbc
    exact .nil
  | @cons a b as bs hr _ ih =>
    cases hbc with
    | @cons _ c _ cs hs hrest =>
      have hfirst := h a List.mem_cons_self b c hr hs
      exact .cons hfirst (ih (fun a ha => h a (List.mem_cons_of_mem _ ha)) hrest)

end

theorem Binary64.sameValue_iff {x y : Binary64} : x.sameValue y ↔ (x.isZero ∧ y.isZero) ∨ x = y := by
  simp [sameValue]

namespace Number

variable {m n k : Number}

theorem same_self (n : Number) : n.same n := by
  cases n <;> simp [same, Binary64.sameValue]

theorem same_symm (h : m.same n) : n.same m := by
  cases m with
  | integer m =>
    cases n with
    | integer n =>
      obtain rfl : m = n := by simpa [same] using h
      exact same_self (integer m)
    | float y => cases h
  | float x =>
    cases n with
    | integer n => cases h
    | float y =>
      rw [same, Binary64.sameValue_iff] at h ⊢
      exact h.imp And.symm Eq.symm

theorem same_trans (hmn : m.same n) (hnk : n.same k) : m.same k := by
  cases m with
  | integer m =>
    cases n with
    | integer n =>
      obtain rfl : m = n := by simpa [same] using hmn
      exact hnk
    | float y => cases hmn
  | float x =>
    cases n with
    | integer n => cases hmn
    | float y =>
      cases k with
      | integer k => cases hnk
      | float z =>
        rw [same, Binary64.sameValue_iff] at hmn hnk ⊢
        rcases hmn with hmn | rfl
        · rcases hnk with hnk | rfl
          · exact .inl ⟨hmn.1, hnk.2⟩
          · exact .inl hmn
        · exact hnk

end Number

namespace Entries

variable {α : Type} {entries others : Entries α}

theorem get?_of_mem (h : entries.names.Nodup) {entry : String × α} (hm : entry ∈ entries) :
    entries.get? entry.1 = some entry.2 := by
  induction entries with
  | nil => cases hm
  | cons first rest ih =>
    obtain ⟨hfirst, hrest⟩ := List.nodup_cons.mp h
    rcases List.mem_cons.mp hm with rfl | hm
    · rw [get?, if_pos rfl]
    · have hne : first.1 ≠ entry.1 := by
        intro he
        exact hfirst (he ▸ List.mem_map_of_mem hm)
      rw [get?, if_neg hne, ih hrest hm]

/-- Entries of distinct names that are all found among others, no more of them, have the names of the others. -/
theorem names_perm (h : entries.names.Nodup) (hlength : entries.length = others.length)
    (hfound : ∀ entry ∈ entries, ∃ v, others.get? entry.1 = some v) : entries.names.Perm others.names := by
  have hsub : entries.names ⊆ others.names := by
    intro name hn
    obtain ⟨entry, hm, rfl⟩ := List.mem_map.mp hn
    obtain ⟨v, hv⟩ := hfound entry hm
    exact List.mem_map.mpr ⟨(entry.1, v), mem_of_get? hv, rfl⟩
  have hle : others.names.length ≤ entries.names.length := by simp [names, hlength]
  exact (h.subperm hsub).perm_of_length_le hle

end Entries

namespace Json

/-- What holds of an array if it holds of its items, and of an object if it holds of the values in it, holds of every
value. -/
@[elab_as_elim]
theorem induction {P : Json → Prop} (null : P .null) (bool : ∀ b, P (.bool b)) (number : ∀ n, P (.number n))
    (string : ∀ s, P (.string s)) (array : ∀ items, (∀ v ∈ items, P v) → P (.array items))
    (object : ∀ fields, (∀ f ∈ fields, P f.2) → P (.object fields)) (value : Json) : P value := by
  match value with
  | .null => exact null
  | .bool b => exact bool b
  | .number n => exact number n
  | .string s => exact string s
  | .array items => exact array items fun v hv => induction null bool number string array object v
  | .object fields => exact object fields fun f hf => induction null bool number string array object f.2
termination_by sizeOf value
decreasing_by
  · have := List.sizeOf_lt_of_mem hv
    simp only [Json.array.sizeOf_spec]
    omega
  · have := List.sizeOf_lt_of_mem hf
    obtain ⟨name, v⟩ := f
    simp only [Json.object.sizeOf_spec, Prod.mk.sizeOf_spec] at this ⊢
    omega

variable {a b c : Json}

theorem sameItems_iff {as bs : List Json} : sameItems as bs ↔ List.Forall₂ (fun a b => a.same b) as bs := by
  induction as generalizing bs with
  | nil => cases bs <;> simp [sameItems]
  | cons a as ih => cases bs <;> simp [sameItems, ih]

theorem sameFields_iff {as : List (String × Json)} {bs : Entries Json} :
    sameFields as bs ↔ ∀ f ∈ as, ∃ v, bs.get? f.1 = some v ∧ f.2.same v := by
  induction as with
  | nil => simp [sameFields]
  | cons f as ih =>
    obtain ⟨name, a⟩ := f
    cases h : bs.get? name <;> simp [sameFields, ih, h]

theorem distinctItems_iff {items : List Json} : DistinctItems items ↔ ∀ v ∈ items, v.Distinct := by
  induction items with
  | nil => simp [DistinctItems]
  | cons item rest ih => simp [DistinctItems, ih]

theorem same_self (h : a.Distinct) : a.same a := by
  induction a using induction with
  | null => simp [same]
  | bool b => simp [same]
  | number n => simpa [same] using n.same_self
  | string s => simp [same]
  | array items ih =>
    rw [Distinct, distinctItems_iff] at h
    rw [same, sameItems_iff, List.forall₂_same]
    intro v hv
    exact ih v hv (h v hv)
  | object fields ih =>
    rw [Distinct, distinctFields_iff] at h
    simp only [same, beq_self_eq_true, Bool.true_and, sameFields_iff]
    intro f hf
    exact ⟨f.2, Entries.get?_of_mem h.1 hf, ih f hf (h.2 f hf)⟩

theorem same_symm (h : a.Distinct) (hab : a.same b) : b.same a := by
  induction a using induction generalizing b with
  | null => cases b <;> simp_all [same]
  | bool x => cases b <;> simp_all [same]
  | number n =>
    cases b with
    | number m =>
      rw [same] at hab ⊢
      exact Number.same_symm hab
    | _ => simp [same] at hab
  | string s => cases b <;> simp_all [same]
  | array as ih =>
    cases b with
    | array bs =>
      rw [Distinct, distinctItems_iff] at h
      rw [same, sameItems_iff] at hab ⊢
      apply forall₂_symm_of_mem _ hab
      intro v hv w hvw
      exact ih v hv (h v hv) hvw
    | _ => simp [same] at hab
  | object as ih =>
    cases b with
    | object bs =>
      rw [Distinct, distinctFields_iff] at h
      simp only [same, Bool.and_eq_true, beq_iff_eq, sameFields_iff] at hab ⊢
      obtain ⟨hlength, hfound⟩ := hab
      have hperm := Entries.names_perm h.1 hlength fun f hf => (hfound f hf).imp fun v hv => hv.1
      have hnodup : (Entries.names bs).Nodup := hperm.nodup_iff.mp h.1
      refine ⟨hlength.symm, fun g hg => ?_⟩
      obtain ⟨f, hf, hname⟩ := List.mem_map.mp (hperm.mem_iff.mpr (List.mem_map_of_mem hg))
      obtain ⟨v, hv, hsame⟩ := hfound f hf
      rw [hname, Entries.get?_of_mem hnodup hg] at hv
      obtain rfl := Option.some.inj hv
      exact ⟨f.2, hname ▸ Entries.get?_of_mem h.1 hf, ih f hf (h.2 f hf) hsame⟩
    | _ => simp [same] at hab

theorem same_trans (hab : a.same b) (hbc : b.same c) : a.same c := by
  induction a using induction generalizing b c with
  | null =>
    cases b with
    | null => exact hbc
    | _ => simp [same] at hab
  | bool x =>
    cases b with
    | bool y =>
      obtain rfl : x = y := by simpa [same] using hab
      exact hbc
    | _ => simp [same] at hab
  | number n =>
    cases b with
    | number m =>
      cases c with
      | number k =>
        rw [same] at hab hbc ⊢
        exact Number.same_trans hab hbc
      | _ => simp [same] at hbc
    | _ => simp [same] at hab
  | string s =>
    cases b with
    | string t =>
      obtain rfl : s = t := by simpa [same] using hab
      exact hbc
    | _ => simp [same] at hab
  | array as ih =>
    cases b with
    | array bs =>
      cases c with
      | array cs =>
        rw [same, sameItems_iff] at hab hbc ⊢
        apply forall₂_comp_of_mem _ hab hbc
        intro x hx y z hxy hyz
        exact ih x hx hxy hyz
      | _ => simp [same] at hbc
    | _ => simp [same] at hab
  | object as ih =>
    cases b with
    | object bs =>
      cases c with
      | object cs =>
        simp only [same, Bool.and_eq_true, beq_iff_eq, sameFields_iff] at hab hbc ⊢
        refine ⟨hab.1.trans hbc.1, fun f hf => ?_⟩
        obtain ⟨v, hv, hfv⟩ := hab.2 f hf
        obtain ⟨w, hw, hvw⟩ := hbc.2 (f.1, v) (Entries.mem_of_get? hv)
        exact ⟨w, hw, ih f hf hfv hvw⟩
      | _ => simp [same] at hbc
    | _ => simp [same] at hab

section

variable {x y z : Option Json}

theorem sameOption_self (h : ∀ v ∈ x, v.Distinct) : sameOption x x := by
  cases x with
  | none => rfl
  | some v => exact same_self (h v rfl)

theorem sameOption_symm (h : ∀ v ∈ x, v.Distinct) (hxy : sameOption x y) : sameOption y x := by
  cases x with
  | none =>
    cases y with
    | none => rfl
    | some b => cases hxy
  | some a =>
    cases y with
    | none => cases hxy
    | some b => exact same_symm (h a rfl) hxy

theorem sameOption_trans (hxy : sameOption x y) (hyz : sameOption y z) : sameOption x z := by
  cases x with
  | none =>
    cases y with
    | none => exact hyz
    | some b => cases hxy
  | some a =>
    cases y with
    | none => cases hxy
    | some b =>
      cases z with
      | none => cases hyz
      | some c => exact same_trans hxy hyz

end

/-- Lists of values are equal as arrays are. -/
theorem sameItemsOption_eq (xs ys : Option (List Json)) :
    sameItemsOption xs ys = sameOption (xs.map .array) (ys.map .array) := by
  cases xs <;> cases ys <;> simp [sameItemsOption, sameOption, same]

end Json

namespace Annotations

variable {a b c : Annotations}

theorem sameBody_iff : a.sameBody b ↔ a.description = b.description ∧ a.examples = b.examples ∧
    Json.sameOption a.defaultValue b.defaultValue ∧ a.see = b.see := by
  simp [sameBody, and_assoc]

theorem sameBody_self (h : ∀ v ∈ a.defaultValue, v.Distinct) : a.sameBody a :=
  sameBody_iff.mpr ⟨rfl, rfl, Json.sameOption_self h, rfl⟩

theorem sameBody_symm (h : ∀ v ∈ a.defaultValue, v.Distinct) (hab : a.sameBody b) : b.sameBody a := by
  obtain ⟨hd, he, hv, hs⟩ := sameBody_iff.mp hab
  exact sameBody_iff.mpr ⟨hd.symm, he.symm, Json.sameOption_symm h hv, hs.symm⟩

theorem sameBody_trans (hab : a.sameBody b) (hbc : b.sameBody c) : a.sameBody c := by
  obtain ⟨hd, he, hv, hs⟩ := sameBody_iff.mp hab
  obtain ⟨hd', he', hv', hs'⟩ := sameBody_iff.mp hbc
  exact sameBody_iff.mpr ⟨hd.trans hd', he.trans he', Json.sameOption_trans hv hv', hs.trans hs'⟩

end Annotations

end TypeSchema
