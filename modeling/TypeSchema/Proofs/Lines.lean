import Mathlib.Data.List.Infix
import Mathlib.Data.List.TakeWhile
import TypeSchema.Text.Blank

namespace TypeSchema

/-- A text that is one line where a line feed follows: a carriage return at its end would be part of the break. -/
def IsRow (line : List Char) : Prop := '\n' ∉ line ∧ line.getLast? ≠ some '\r'

theorem IsRow.append {line before : List Char} (h : IsRow line) (hne : line ≠ []) (hb : '\n' ∉ before) :
    IsRow (before ++ line) := by
  refine ⟨by simp [hb, h.1], ?_⟩
  rw [List.getLast?_append, List.getLast?_eq_some_getLast hne, Option.some_or, ← List.getLast?_eq_some_getLast hne]
  exact h.2

theorem lineOfReversed_reverse {line : List Char} (h : line.getLast? ≠ some '\r') :
    lineOfReversed line.reverse = line := by
  unfold lineOfReversed
  split
  · next rest heq =>
    rw [List.getLast?_eq_head?_reverse, heq] at h
    exact absurd rfl h
  · exact List.reverse_reverse line

theorem linesFrom_line {line : List Char} (h : '\n' ∉ line) (before : List Char) :
    linesFrom before line = if before.reverse ++ line = [] then [] else [before.reverse ++ line] := by
  induction line generalizing before with
  | nil => simp [linesFrom]
  | cons c line ih =>
    simp only [List.mem_cons, not_or] at h
    rw [linesFrom.eq_3 _ _ _ (Ne.symm h.1), ih h.2]
    simp

theorem linesFrom_break {line : List Char} (h : '\n' ∉ line) (before rest : List Char) :
    linesFrom before (line ++ '\n' :: rest) = lineOfReversed (before.reverse ++ line).reverse :: lines rest := by
  induction line generalizing before with
  | nil => simp [linesFrom, lines]
  | cons c line ih =>
    simp only [List.mem_cons, not_or] at h
    rw [List.cons_append, linesFrom.eq_3 _ _ _ (Ne.symm h.1), ih h.2]
    simp

theorem lines_line {line : List Char} (h : '\n' ∉ line) (hne : line ≠ []) : lines line = [line] := by
  simp [lines, linesFrom_line h, hne]

theorem lines_break {line : List Char} (h : IsRow line) (rest : List Char) :
    lines (line ++ '\n' :: rest) = line :: lines rest := by
  rw [lines, linesFrom_break h.1, List.reverse_nil, List.nil_append, lineOfReversed_reverse h.2]

@[simp] theorem joinWith_nil (separator : List Char) : joinWith separator [] = [] := rfl

@[simp] theorem joinWith_singleton (separator s : List Char) : joinWith separator [s] = s := rfl

theorem joinWith_cons (separator s : List Char) {rest : List (List Char)} (h : rest ≠ []) :
    joinWith separator (s :: rest) = s ++ separator ++ joinWith separator rest := by
  cases rest with
  | nil => exact absurd rfl h
  | cons t rest => rfl

theorem joinWith_append (separator : List Char) {ls ms : List (List Char)} (hl : ls ≠ []) (hm : ms ≠ []) :
    joinWith separator (ls ++ ms) = joinWith separator ls ++ separator ++ joinWith separator ms := by
  induction ls with
  | nil => exact absurd rfl hl
  | cons l ls ih =>
    by_cases h : ls = []
    · rw [h, List.singleton_append, joinWith_cons _ _ hm, joinWith_singleton]
    · rw [List.cons_append, joinWith_cons _ _ (by simp [h]), ih h, joinWith_cons _ _ h]
      simp

theorem getLast?_joinWith {ls : List (List Char)} {l : List Char} (h : ls.getLast? = some l) (hl : l ≠ [])
    (separator : List Char) : (joinWith separator ls).getLast? = l.getLast? := by
  obtain ⟨ms, rfl⟩ := List.getLast?_eq_some_iff.mp h
  by_cases hms : ms = []
  · simp [hms]
  · rw [joinWith_append _ hms (by simp), joinWith_singleton, List.getLast?_append,
      List.getLast?_eq_some_getLast hl]
    rfl

theorem suffix_joinWith (before : List (List Char)) {after : List (List Char)} (h : after ≠ []) (separator : List Char) :
    joinWith separator after <:+ joinWith separator (before ++ after) := by
  by_cases hb : before = []
  · rw [hb, List.nil_append]
  · rw [joinWith_append _ hb h]
    exact List.suffix_append _ _

/-- A carriage return at the end of a line would stand before a line feed, or at the end of the text. -/
theorem isRow_of_joinWith {ls : List (List Char)} (hbreak : ∀ l ∈ ls, '\n' ∉ l)
    (hreturn : ¬['\r', '\n'] <:+: joinWith ['\n'] ls) (hlast : (joinWith ['\n'] ls).getLast? ≠ some '\r')
    {l : List Char} (hl : l ∈ ls) : IsRow l := by
  refine ⟨hbreak l hl, fun hend => ?_⟩
  obtain ⟨start, rfl⟩ := List.getLast?_eq_some_iff.mp hend
  obtain ⟨before, after, rfl⟩ := List.append_of_mem hl
  by_cases ha : after = []
  · rw [ha, getLast?_joinWith (l := start ++ ['\r']) (by simp) (by simp), List.getLast?_concat] at hlast
    exact hlast rfl
  · refine hreturn (List.IsInfix.trans ?_ (suffix_joinWith before (by simp) ['\n']).isInfix)
    exact ⟨start, joinWith ['\n'] after, by rw [joinWith_cons _ _ ha]; simp⟩

/-- Lines before a line break come apart again. -/
theorem lines_joinWith_break {ls : List (List Char)} (h : ∀ l ∈ ls, IsRow l) (hne : ls ≠ [])
    (rest : List Char) : lines (joinWith ['\n'] ls ++ '\n' :: rest) = ls ++ lines rest := by
  induction ls with
  | nil => exact absurd rfl hne
  | cons l ls ih =>
    by_cases hls : ls = []
    · rw [hls, joinWith_singleton, lines_break (h l List.mem_cons_self)]
      rfl
    · rw [joinWith_cons _ _ hls, List.append_assoc, List.append_assoc, List.singleton_append,
        lines_break (h l List.mem_cons_self), ih (fun m hm => h m (List.mem_cons_of_mem _ hm)) hls]
      rfl

/-- Lines come apart again, unless the last one is empty. -/
theorem lines_joinWith {ls : List (List Char)} (h : ∀ l ∈ ls, IsRow l) (hlast : ls.getLast? ≠ some []) :
    lines (joinWith ['\n'] ls) = ls := by
  rcases List.eq_nil_or_concat ls with rfl | ⟨ms, l, rfl⟩
  · rfl
  · have hl : l ≠ [] := by simpa using hlast
    have hline := h l (by simp)
    by_cases hms : ms = []
    · simp [hms, lines_line hline.1 hl]
    · rw [List.concat_eq_append, joinWith_append _ hms (by simp), List.append_assoc, List.singleton_append,
        joinWith_singleton, lines_joinWith_break (fun m hm => h m (by simp [hm])) hms, lines_line hline.1 hl]

theorem linesFrom_ne_nil {before s : List Char} (h : before ≠ [] ∨ s ≠ []) : linesFrom before s ≠ [] := by
  induction s generalizing before with
  | nil => simpa [linesFrom] using h
  | cons c s ih =>
    by_cases hc : c = '\n'
    · simp [hc, linesFrom]
    · rw [linesFrom.eq_3 _ _ _ hc]
      exact ih (.inl (by simp))

theorem joinWith_linesFrom {before s : List Char} (hs : ¬['\r', '\n'] <:+: before.reverse ++ s)
    (hlast : s.getLast? ≠ some '\n') : joinWith ['\n'] (linesFrom before s) = before.reverse ++ s := by
  induction s generalizing before with
  | nil => cases before <;> simp [linesFrom]
  | cons c s ih =>
    by_cases hc : c = '\n'
    · subst hc
      have hrow : before.reverse.getLast? ≠ some '\r' := by
        intro hreturn
        obtain ⟨line, hline⟩ := List.getLast?_eq_some_iff.mp hreturn
        exact hs ⟨line, s, by simp [hline]⟩
      have hline := lineOfReversed_reverse hrow
      rw [List.reverse_reverse] at hline
      cases s with
      | nil => simp at hlast
      | cons d s =>
        have hrest : ¬['\r', '\n'] <:+: [].reverse ++ d :: s := fun hi =>
          hs (hi.trans ⟨before.reverse ++ ['\n'], [], by simp⟩)
        rw [linesFrom, hline, joinWith_cons _ _ (linesFrom_ne_nil (by simp)), ih hrest (by simpa using hlast)]
        simp
    · rw [linesFrom.eq_3 _ _ _ hc, ih (by simpa using hs) (by cases s <;> simp_all)]
      simp

/-- A text that ends in no line feed, with no carriage return before one, is its lines. -/
theorem joinWith_lines {s : List Char} (hs : ¬['\r', '\n'] <:+: s) (hlast : s.getLast? ≠ some '\n') :
    joinWith ['\n'] (lines s) = s :=
  joinWith_linesFrom (by simpa using hs) hlast

theorem lines_ne_nil {s : List Char} (h : s ≠ []) : lines s ≠ [] := linesFrom_ne_nil (.inr h)

theorem lineOfReversed_isPrefix (line : List Char) : lineOfReversed line <+: line.reverse := by
  unfold lineOfReversed
  split
  · simp
  · exact List.prefix_rfl

theorem infix_of_mem_linesFrom {before s line : List Char} (h : line ∈ linesFrom before s) :
    line <:+: before.reverse ++ s := by
  induction s generalizing before with
  | nil =>
    cases before with
    | nil => simp [linesFrom] at h
    | cons c before =>
      simp only [linesFrom, List.isEmpty_cons, Bool.false_eq_true, if_false, List.mem_singleton] at h
      simp [h]
  | cons c s ih =>
    by_cases hc : c = '\n'
    · rw [hc, linesFrom] at h
      rcases List.mem_cons.mp h with rfl | h
      · exact ((lineOfReversed_isPrefix before).trans (List.prefix_append _ _)).isInfix
      · exact (ih h).trans ⟨before.reverse ++ [c], [], by simp⟩
    · rw [linesFrom.eq_3 _ _ _ hc] at h
      simpa using ih h

theorem not_mem_of_mem_linesFrom {before s line : List Char} (hb : '\n' ∉ before) (h : line ∈ linesFrom before s) :
    '\n' ∉ line := by
  induction s generalizing before with
  | nil =>
    cases before with
    | nil => simp [linesFrom] at h
    | cons c before =>
      simp only [linesFrom, List.isEmpty_cons, Bool.false_eq_true, if_false, List.mem_singleton] at h
      rw [h]
      exact mt List.mem_reverse.mp hb
  | cons c s ih =>
    by_cases hc : c = '\n'
    · rw [hc, linesFrom] at h
      rcases List.mem_cons.mp h with rfl | h
      · exact fun hm => hb (List.mem_reverse.mp ((lineOfReversed_isPrefix before).subset hm))
      · exact ih (by simp) h
    · rw [linesFrom.eq_3 _ _ _ hc] at h
      exact ih (by simp [hb, Ne.symm hc]) h

theorem infix_of_mem_lines {s line : List Char} (h : line ∈ lines s) : line <:+: s := by
  simpa using infix_of_mem_linesFrom h

theorem not_mem_of_mem_lines {s line : List Char} (h : line ∈ lines s) : '\n' ∉ line :=
  not_mem_of_mem_linesFrom (by simp) h

/-- A text with no blank at either end. -/
def Tight (s : List Char) : Prop := (∀ c ∈ s.head?, isBlank c = false) ∧ ∀ c ∈ s.getLast?, isBlank c = false

instance (s : List Char) : Decidable (Tight s) :=
  decidable_of_iff (s.head?.all (!isBlank ·) && s.getLast?.all (!isBlank ·)) (by simp [Tight, Option.all_eq_true])

theorem blank_of_all {s : List Char} (h : s.all isBlank) : ∀ c ∈ s, isBlank c := List.all_eq_true.mp h

theorem trimStart_blank {a : List Char} (ha : ∀ c ∈ a, isBlank c) (s : List Char) :
    trimStart (a ++ s) = trimStart s :=
  List.dropWhile_append_of_pos ha

theorem trimStart_tight {s : List Char} (h : ∀ c ∈ s.head?, isBlank c = false) : trimStart s = s := by
  cases s with
  | nil => rfl
  | cons c s => exact List.dropWhile_cons_of_neg (by simp [h c rfl])

theorem trimEnd_blank {b : List Char} (hb : ∀ c ∈ b, isBlank c) (s : List Char) :
    trimEnd (s ++ b) = trimEnd s := by
  rw [trimEnd, trimEnd, List.reverse_append, List.dropWhile_append_of_pos (by simpa using hb)]

theorem trimEnd_tight {s : List Char} (h : ∀ c ∈ s.getLast?, isBlank c = false) : trimEnd s = s := by
  have := trimStart_tight (s := s.reverse) (by simpa using h)
  rw [trimStart] at this
  rw [trimEnd, this, List.reverse_reverse]

theorem trim_tight {s : List Char} (h : Tight s) : trim s = s := by
  rw [trim, trimStart_tight h.1, trimEnd_tight h.2]

/-- Blanks around a text are no part of it. -/
theorem trim_pad {a s b : List Char} (ha : ∀ c ∈ a, isBlank c) (hb : ∀ c ∈ b, isBlank c) (h : Tight s) :
    trim (a ++ s ++ b) = s := by
  cases s with
  | nil =>
    have : trimStart (a ++ b) = [] := List.dropWhile_eq_nil_iff.mpr (by simp; grind)
    simp [trim, this, trimEnd]
  | cons c s =>
    have : trimStart (c :: s ++ b) = c :: s ++ b := trimStart_tight (by simpa using h.1)
    rw [trim, List.append_assoc, trimStart_blank ha, this, trimEnd_blank hb, trimEnd_tight h.2]

/-- Blanks behind a text make no difference to what it is without blanks. -/
theorem trim_append {b : List Char} (hb : ∀ c ∈ b, isBlank c) (s : List Char) : trim (s ++ b) = trim s := by
  have hnil : trimStart b = [] := List.dropWhile_eq_nil_iff.mpr hb
  rw [trim, trim]
  change trimEnd ((s ++ b).dropWhile isBlank) = _
  rw [List.dropWhile_append]
  split
  · next h =>
    rw [show trimStart s = [] from List.isEmpty_iff.mp h]
    exact congrArg trimEnd hnil
  · exact trimEnd_blank hb _

theorem trimEnd_isPrefix (s : List Char) : trimEnd s <+: s := by
  have := List.dropWhile_suffix isBlank (l := s.reverse)
  rwa [← List.reverse_prefix, List.reverse_reverse] at this

end TypeSchema
