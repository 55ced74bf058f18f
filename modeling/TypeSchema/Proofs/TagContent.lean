import Mathlib.Data.List.Flatten
import Mathlib.Data.List.Infix
import TypeSchema.Proofs.CommentReading

namespace TypeSchema

def solid (s : List Char) : List Char := s.filter (!isBlank ·)

@[simp] theorem solid_append (s t : List Char) : solid (s ++ t) = solid s ++ solid t := List.filter_append ..

theorem solid_eq_nil_iff {s : List Char} : solid s = [] ↔ ∀ c ∈ s, isBlank c := by
  simp [solid]

@[simp] theorem solid_trimStart (s : List Char) : solid (trimStart s) = solid s := by
  have hfront : solid (s.takeWhile isBlank) = [] := solid_eq_nil_iff.mpr fun c hc => List.mem_takeWhile_imp hc
  calc solid (trimStart s) = solid (s.takeWhile isBlank) ++ solid (trimStart s) := by rw [hfront, List.nil_append]
    _ = solid s := by rw [← solid_append, trimStart, List.takeWhile_append_dropWhile]

@[simp] theorem solid_trimEnd (s : List Char) : solid (trimEnd s) = solid s := by
  have h := solid_trimStart s.reverse
  simp only [solid, trimStart, List.filter_reverse] at h
  rw [trimEnd, solid, List.filter_reverse, h, List.reverse_reverse, solid]

@[simp] theorem solid_trim (s : List Char) : solid (trim s) = solid s := by
  rw [trim, solid_trimEnd, solid_trimStart]

theorem solid_joinWith {separator : List Char} (h : solid separator = []) (ls : List (List Char)) :
    solid (joinWith separator ls) = ls.flatMap solid := by
  induction ls with
  | nil => rfl
  | cons l ls ih =>
    by_cases hnil : ls = []
    · simp [hnil]
    · rw [joinWith_cons _ _ hnil, solid_append, solid_append, h, ih, List.append_nil, List.flatMap_cons]

theorem flatMap_filter {α β : Type} (p : α → Bool) (f : α → List β) (xs : List α) :
    (xs.filter p).flatMap f = xs.flatMap fun x => if p x then f x else [] := by
  induction xs with
  | nil => rfl
  | cons x xs ih => cases h : p x <;> simp [h, ih]

/-- Nothing is lost just if what is left out adds nothing. -/
theorem flatMap_filter_eq_iff {α β : Type} {p : α → Bool} {f : α → List β} {xs : List α} :
    (xs.filter p).flatMap f = xs.flatMap f ↔ ∀ x ∈ xs, f x ≠ [] → p x := by
  induction xs with
  | nil => simp
  | cons x xs ih =>
    rw [List.forall_mem_cons, ← ih]
    cases h : p x with
    | true => simp [h]
    | false =>
      have hsub : ((xs.filter p).flatMap f).Sublist (xs.flatMap f) := by
        rw [flatMap_filter]
        apply List.Sublist.flatMap_right
        intro y _
        split
        · exact List.Sublist.refl _
        · exact List.nil_sublist _
      rw [List.filter_cons_of_neg (by simp [h]), List.flatMap_cons]
      constructor
      · intro heq
        have hlength := congrArg List.length heq
        have hle := hsub.length_le
        rw [List.length_append] at hlength
        have hnil : f x = [] := List.length_eq_zero_iff.mp (by omega)
        exact ⟨fun hne => absurd hnil hne, by rw [heq, hnil, List.nil_append]⟩
      · rintro ⟨hx, hrest⟩
        have hnil : f x = [] := by
          by_contra hne
          exact Bool.false_ne_true (hx hne)
        rw [hrest, hnil, List.nil_append]

namespace DocComment

/-- Blanks of so many bytes stand in front of a line. -/
def IndentedBy (n : Nat) (line : List Char) : Prop :=
  ∃ blanks rest, line = blanks ++ rest ∧ (∀ c ∈ blanks, isBlank c) ∧ byteSize blanks = n

instance (n : Nat) (line : List Char) : Decidable (IndentedBy n line) :=
  decidable_of_iff (line.inits.any fun blanks => blanks.all isBlank && byteSize blanks == n) <| by
    simp only [List.any_eq_true, Bool.and_eq_true, List.all_eq_true, beq_iff_eq, List.mem_inits, IndentedBy]
    constructor
    · rintro ⟨blanks, ⟨rest, rfl⟩, h⟩
      exact ⟨blanks, rest, rfl, h⟩
    · rintro ⟨blanks, rest, rfl, h⟩
      exact ⟨blanks, ⟨rest, rfl⟩, h⟩

theorem dropBytes?_append (before rest : List Char) : dropBytes? (byteSize before) (before ++ rest) = some rest := by
  induction before with
  | nil => simp [byteSize, dropBytes?]
  | cons c before ih =>
    have hpos := c.utf8Size_pos
    obtain ⟨n, hn⟩ : ∃ n, c.utf8Size + byteSize before = n + 1 := ⟨c.utf8Size + byteSize before - 1, by omega⟩
    rw [List.cons_append, byteSize, hn, dropBytes?, if_pos (by omega), ← hn, Nat.add_sub_cancel_left, ih]

/-- Before the characters of a line that are not blank, there is nothing but blanks in the common indentation. -/
theorem blank_of_dropBytes? {more : List (List Char)} {line before rest : List Char} (hl : line ∈ more)
    (hline : line = before ++ rest) (hsize : byteSize before = commonIndentation more) : ∀ c ∈ before, isBlank c := by
  subst hline
  by_cases hblank : trim (before ++ rest) = []
  · intro c hc
    exact List.dropWhile_eq_nil_iff.mp (trimStart_eq_nil_of_trim hblank) c (List.mem_append_left _ hc)
  · exact blank_of_byteSize_le (hsize ▸ commonIndentation_le hl hblank)

/-- A line without the common indentation is all that is solid in it, or nothing. -/
theorem solid_dedent {more : List (List Char)} {line : List Char} (hl : line ∈ more) :
    solid (dedent more line) = if IndentedBy (commonIndentation more) line then solid line else [] := by
  rw [dedent, solid_trimEnd]
  cases hdrop : dropBytes? (commonIndentation more) line with
  | none =>
    have hnot : ¬IndentedBy (commonIndentation more) line := by
      rintro ⟨blanks, rest, rfl, -, hsize⟩
      rw [← hsize, dropBytes?_append] at hdrop
      cases hdrop
    rw [if_neg hnot]
    rfl
  | some rest =>
    obtain ⟨before, hline, hsize⟩ := dropBytes?_eq_some hdrop
    have hbefore := blank_of_dropBytes? hl hline hsize
    rw [if_pos ⟨before, rest, hline, hbefore, hsize⟩, Option.getD_some, hline, solid_append,
      solid_eq_nil_iff.mpr hbefore, List.nil_append]

/-- The text of a tag keeps what is solid in its first line, then, line by line, what is solid in the later lines in
front of which blanks of just the size of the common indentation stand; so it keeps everything if and only if every
line that is not blank is one of these. -/
theorem solid_tagText (first : List Char) (more : List (List Char)) :
    solid (tagText first more) =
      solid first ++ (more.filter (IndentedBy (commonIndentation more) ·)).flatMap solid ∧
    (solid (tagText first more) = solid first ++ more.flatMap solid ↔
      ∀ line ∈ more, solid line ≠ [] → IndentedBy (commonIndentation more) line) := by
  have hkept : solid (tagText first more) =
      solid first ++ (more.filter (IndentedBy (commonIndentation more) ·)).flatMap solid := by
    change solid (trim (joinWith ['\n'] (first :: more.map (dedent more)))) = _
    rw [solid_trim, solid_joinWith (by decide), List.flatMap_cons, List.flatMap_map, flatMap_filter]
    congr 1
    apply List.flatMap_congr
    intro line hl
    simp [solid_dedent hl]
  refine ⟨hkept, ?_⟩
  rw [hkept, List.append_cancel_left_eq, flatMap_filter_eq_iff]
  simp

/-- Two spaces are the common indentation, and no place to cut an ideographic space of three bytes. -/
example : tagText [] ["  one".toList, "\u3000two".toList] = "one".toList := by decide

end DocComment

end TypeSchema
