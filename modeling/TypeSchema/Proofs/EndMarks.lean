import TypeSchema.DocComment
import TypeSchema.Proofs.Lines

namespace TypeSchema.DocComment

/-- Every `*/` becomes `*\/`. -/
def escape : List Char → List Char
  | '*' :: '/' :: rest => '*' :: '\\' :: '/' :: escape rest
  | c :: rest => c :: escape rest
  | [] => []

/-- Every `*\/` becomes `*/`. -/
def unescape : List Char → List Char
  | '*' :: '\\' :: '/' :: rest => '*' :: '/' :: unescape rest
  | c :: rest => c :: unescape rest
  | [] => []

attribute [local simp] escape unescape

theorem replaceAll_escape (s : List Char) : replaceAll "*/".toList "*\\/".toList s = escape s := by
  rw [replaceAll]
  fun_induction escape s with
  | case1 rest ih => simpa [replaceFrom] using ih
  | case2 c rest hne ih =>
    have : ¬['*', '/'] <+: c :: rest := by
      rintro ⟨more, hm⟩
      simp only [List.cons_append, List.nil_append, List.cons.injEq] at hm
      exact hne more hm.1.symm hm.2.symm
    simp_all only [replaceFrom, List.cons_prefix_cons]
    grind
  | case3 => rfl

theorem replaceAll_unescape (s : List Char) : replaceAll "*\\/".toList "*/".toList s = unescape s := by
  rw [replaceAll]
  fun_induction unescape s with
  | case1 rest ih => simpa [replaceFrom] using ih
  | case2 c rest hne ih =>
    have : ¬['*', '\\', '/'] <+: c :: rest := by
      rintro ⟨more, hm⟩
      simp only [List.cons_append, List.nil_append, List.cons.injEq] at hm
      exact hne more hm.1.symm hm.2.symm
    simp_all only [replaceFrom, List.cons_prefix_cons]
    grind
  | case3 => rfl

theorem escape_cons {c : Char} (hc : c ≠ '*') (s : List Char) : escape (c :: s) = c :: escape s := by
  rw [escape]
  rintro _ rfl
  exact absurd rfl hc

theorem unescape_cons {c : Char} (hc : c ≠ '*') (s : List Char) : unescape (c :: s) = c :: unescape s := by
  rw [unescape]
  rintro _ rfl
  exact absurd rfl hc

/-- Nothing is escaped across a character that stands in no end mark. -/
theorem escape_append {c : Char} (hc : c ≠ '*') (hc' : c ≠ '/') (s rest : List Char) :
    escape (s ++ c :: rest) = escape s ++ c :: escape rest := by
  fun_induction escape s with
  | case1 s ih => simp [ih]
  | case2 d s hne ih =>
    rw [List.cons_append, escape, ih, List.cons_append]
    rintro more rfl hm
    cases s with
    | nil => simp_all
    | cons e s => simp_all
  | case3 => simp [escape_cons hc]

theorem unescape_append {c : Char} (hc : c ≠ '*') (hc' : c ≠ '/') (hc'' : c ≠ '\\') (s rest : List Char) :
    unescape (s ++ c :: rest) = unescape s ++ c :: unescape rest := by
  fun_induction unescape s with
  | case1 s ih => simp [ih]
  | case2 d s hne ih =>
    rw [List.cons_append, unescape, ih, List.cons_append]
    rintro more rfl hm
    rcases s with _ | ⟨e, _ | ⟨f, s⟩⟩ <;> simp_all
  | case3 => simp [unescape_cons hc]

/-- A character that starts an escaped text, other than a star, starts the text. -/
theorem of_escape_eq_cons {s t : List Char} {c : Char} (hc : c ≠ '*') (h : escape s = c :: t) :
    ∃ r, s = c :: r ∧ escape r = t := by
  revert h
  fun_cases escape s with
  | case1 rest =>
    intro h
    exact absurd (List.cons.inj h).1.symm hc
  | case2 d rest hne =>
    rintro ⟨⟩
    exact ⟨rest, rfl, rfl⟩
  | case3 => rintro ⟨⟩

/-- A text with nothing that looks like an escaped end mark is what its escaped form stands for. -/
theorem unescape_escape {s : List Char} (h : ¬['*', '\\', '/'] <:+: s) : unescape (escape s) = s := by
  fun_induction escape s with
  | case1 rest ih => rw [unescape, ih fun hi => h (hi.trans ⟨['*', '/'], [], by simp⟩)]
  | case2 c rest hne ih =>
    rw [unescape, ih fun hi => h (hi.trans ⟨[c], [], by simp⟩)]
    rintro more rfl hm
    obtain ⟨r, rfl, hr⟩ := of_escape_eq_cons (by decide) hm
    obtain ⟨r', rfl, -⟩ := of_escape_eq_cons (by decide) hr
    exact h ⟨[], r', rfl⟩
  | case3 => rfl

end TypeSchema.DocComment
