import TypeSchema.Proofs.EndMarks

namespace TypeSchema

theorem isPrefixOf?_append (before s : List Char) : before.isPrefixOf? (before ++ s) = some s := by
  induction before with
  | nil => cases s <;> rfl
  | cons c before ih =>
    change (if c == c then before.isPrefixOf? (before ++ s) else none) = some s
    rw [if_pos (beq_self_eq_true c), ih]

theorem isSuffixOf?_append (s after : List Char) : after.isSuffixOf? (s ++ after) = some s := by
  change (after.reverse.isPrefixOf? (s ++ after).reverse).map List.reverse = some s
  rw [List.reverse_append, isPrefixOf?_append, Option.map_some, List.reverse_reverse]

namespace DocComment

theorem unwrap?_wrap (before after s : List Char) : unwrap? before after (before ++ s ++ after) = some s := by
  rw [unwrap?, List.append_assoc, isPrefixOf?_append, Option.bind_some, isSuffixOf?_append]

theorem mem_escape {s : List Char} {c : Char} (h : c ∈ escape s) : c ∈ s ∨ c = '\\' := by
  fun_induction escape s with
  | case1 rest ih =>
    simp only [List.mem_cons] at h ⊢
    rcases h with h | h | h | h
    · exact .inl (.inl h)
    · exact .inr h
    · exact .inl (.inr (.inl h))
    · exact (ih h).imp (fun h => .inr (.inr h)) id
  | case2 d rest hne ih =>
    simp only [List.mem_cons] at h ⊢
    rcases h with h | h
    · exact .inl (.inl h)
    · exact (ih h).imp .inr id
  | case3 => simp at h

theorem escape_eq_nil {s : List Char} : escape s = [] ↔ s = [] := by
  fun_cases escape s <;> simp

/-- A text ends as it did when its end marks are escaped. -/
theorem getLast?_escape (s : List Char) : (escape s).getLast? = s.getLast? := by
  fun_induction escape s with
  | case1 rest ih => simp [List.getLast?_cons, ih]
  | case2 c rest hne ih => simp [List.getLast?_cons, ih]
  | case3 => rfl

theorem isRow_escape {line : List Char} (h : IsRow line) : IsRow (escape line) :=
  ⟨fun hm => (mem_escape hm).elim h.1 (by decide), getLast?_escape line ▸ h.2⟩

theorem escape_joinWith (ls : List (List Char)) :
    escape (joinWith ['\n'] ls) = joinWith ['\n'] (ls.map escape) := by
  induction ls with
  | nil => rfl
  | cons l ls ih =>
    by_cases h : ls = []
    · simp [h]
    · rw [joinWith_cons _ _ h, List.map_cons, joinWith_cons _ _ (by simpa using h), List.append_assoc,
        List.singleton_append, escape_append (by decide) (by decide), ih]
      simp

theorem unescape_joinWith (ls : List (List Char)) :
    unescape (joinWith ['\n'] ls) = joinWith ['\n'] (ls.map unescape) := by
  induction ls with
  | nil => rfl
  | cons l ls ih =>
    by_cases h : ls = []
    · simp [h]
    · rw [joinWith_cons _ _ h, List.map_cons, joinWith_cons _ _ (by simpa using h), List.append_assoc,
        List.singleton_append, unescape_append (by decide) (by decide) (by decide), ih]
      simp

/-- Lines that a comment can hold. -/
structure Block (ls : List (List Char)) : Prop where
  isRow : ∀ l ∈ ls, IsRow l
  safe : ∀ l ∈ ls, unescape (escape l) = l
  tight : Tight (joinWith ['\n'] ls)
  nonempty : joinWith ['\n'] ls ≠ []

theorem Block.ne_nil {ls : List (List Char)} (h : Block ls) : ls ≠ [] := by
  rintro rfl
  exact h.nonempty rfl

theorem Block.getLast? {ls : List (List Char)} (h : Block ls) : ls.getLast? ≠ some [] := by
  intro hl
  obtain ⟨ms, rfl⟩ := List.getLast?_eq_some_iff.mp hl
  have hlast := h.tight.2
  by_cases hms : ms = []
  · exact h.nonempty (by simp [hms])
  · rw [joinWith_append _ hms (by simp)] at hlast
    exact absurd (hlast '\n' (by simp)) (by decide)

theorem Block.lines_escape {ls : List (List Char)} (h : Block ls) :
    lines (escape (joinWith ['\n'] ls)) = ls.map escape := by
  rw [escape_joinWith, lines_joinWith]
  · simpa using fun l hl => isRow_escape (h.isRow l hl)
  · rw [List.getLast?_map]
    intro hl
    obtain ⟨l, hl, he⟩ := Option.map_eq_some_iff.mp hl
    exact h.getLast? (by rw [hl, escape_eq_nil.mp he])

/-- The comment around a text. -/
def comment (text : List Char) : List Char :=
  if text.contains '\n' then
    "/**\n".toList ++ joinWith ['\n'] ((lines text).map starred) ++ "\n */".toList
  else "/** ".toList ++ text ++ " */".toList

theorem unescape_starred {line : List Char} (h : unescape (escape line) = line) :
    unescape (starred (escape line)) = starred line := by
  by_cases hl : line = []
  · subst hl
    decide
  · have he : escape line ≠ [] := mt escape_eq_nil.mp hl
    simp only [starred, List.isEmpty_iff, hl, he, if_false]
    change unescape (' ' :: '*' :: ' ' :: escape line) = ' ' :: '*' :: ' ' :: line
    rw [unescape_cons (by decide), unescape, unescape_cons (by decide), h]
    simp

theorem isRow_starred {line : List Char} (h : IsRow line) : IsRow (starred line) := by
  rw [starred]
  split
  · exact ⟨by decide, by decide⟩
  · next hne => exact h.append (by simpa using hne) (by decide)

theorem withoutStar_starred (line : List Char) : withoutStar (starred line) = line := by
  rw [starred]
  split
  · next h => rw [List.isEmpty_iff.mp h]; rfl
  · rfl

theorem content_wrap {s : List Char} : content ("/**".toList ++ s ++ "*/".toList) = unescape s := by
  have ht : Tight ("/**".toList ++ s ++ "*/".toList) := by
    constructor
    · intro c hc
      obtain rfl : '/' = c := by simpa using hc
      decide
    · intro c hc
      rw [show "*/".toList = ['*'] ++ ['/'] from rfl, ← List.append_assoc, List.getLast?_concat] at hc
      obtain rfl : '/' = c := by simpa using hc
      decide
  rw [content, trim_tight ht, unwrap?_wrap, Option.getD_some, replaceAll_unescape]

theorem not_mem_joinWith {line : List Char} (h : IsRow line) :
    (escape (joinWith ['\n'] [line])).contains '\n' = false := by
  simpa using (isRow_escape h).1

theorem mem_joinWith (l m : List Char) (ls : List (List Char)) :
    (escape (joinWith ['\n'] (l :: m :: ls))).contains '\n' = true := by
  rw [escape_joinWith, List.map_cons, joinWith_cons _ _ (by simp)]
  simp

/-- The lines that are read from a comment. -/
def commentLines (comment : List Char) : List (List Char) := (lines (content comment)).map withoutStar

/-- A comment of one line is read as that line, without a star in front and with the space before the end mark. -/
theorem commentLines_one {line : List Char} (h : Block [line]) :
    commentLines (comment (escape (joinWith ['\n'] [line]))) = [withoutStar (line ++ [' '])] := by
  have hl := h.isRow line (by simp)
  have hc : comment (escape line) = "/**".toList ++ (' ' :: escape line ++ [' ']) ++ "*/".toList := by
    have := not_mem_joinWith hl
    rw [joinWith_singleton] at this
    rw [comment, this, if_neg (by simp)]
    simp
  have hline : '\n' ∉ ' ' :: (line ++ [' ']) := by simpa using hl.1
  have htrim : trimStart (' ' :: (line ++ [' '])) = trimStart (line ++ [' ']) := by
    rw [← List.singleton_append, trimStart_blank (blank_of_all (by decide))]
  rw [joinWith_singleton, commentLines, hc, content_wrap, List.cons_append, unescape_cons (by decide),
    unescape_append (by decide) (by decide) (by decide), h.safe line (by simp), unescape, lines_line hline (by simp),
    List.map_singleton, withoutStar, withoutStar, htrim]

/-- Where there is no star in front, that is the line. -/
theorem withoutStar_line {line : List Char} (h : Block [line]) (hs : line.head? ≠ some '*') (rest : List Char) :
    withoutStar (line ++ rest) = line ++ rest := by
  have hstart := h.tight.1
  have hne := h.nonempty
  rw [joinWith_singleton] at hstart hne
  have htrim : trimStart (line ++ rest) = line ++ rest := by
    rw [trimStart_tight]
    simpa [List.head?_append, List.head?_eq_some_head hne] using hstart
  rw [withoutStar, htrim]
  cases line with
  | nil => exact absurd rfl hne
  | cons c line =>
    have hcs : c ≠ '*' := by simpa using hs
    split <;> simp_all

/-- A comment of more lines is read as these lines, between two empty ones. -/
theorem commentLines_more {l m : List Char} {ls : List (List Char)} (h : Block (l :: m :: ls)) :
    commentLines (comment (escape (joinWith ['\n'] (l :: m :: ls)))) = [] :: (l :: m :: ls) ++ [[]] := by
  have hc := mem_joinWith l m ls
  generalize hls : l :: m :: ls = all at h hc
  have hne : all ≠ [] := by simp [← hls]
  have hline : ∀ s ∈ all.map starred, IsRow s := by
    simpa using fun s hs => isRow_starred (h.isRow s hs)
  have hun : ((all.map escape).map starred).map unescape = all.map starred := by
    simpa using fun s hs => unescape_starred (h.safe s hs)
  have hw : comment (escape (joinWith ['\n'] all)) =
      "/**".toList ++ ('\n' :: (joinWith ['\n'] ((all.map escape).map starred) ++ "\n ".toList)) ++ "*/".toList := by
    rw [comment, hc, if_pos rfl, h.lines_escape]
    simp
  have hback : (all.map starred).map withoutStar = all := by
    simp [Function.comp_def, withoutStar_starred]
  rw [commentLines, hw, content_wrap, unescape_cons (by decide),
    show "\n ".toList = '\n' :: [' '] from rfl, unescape_append (by decide) (by decide) (by decide),
    unescape_joinWith, hun, ← List.nil_append ('\n' :: _), lines_break ⟨by simp, by simp⟩,
    show unescape [' '] = [' '] from rfl, lines_joinWith_break hline (by simpa using hne)]
  rw [List.map_cons, List.map_append, hback]
  rfl

end DocComment

end TypeSchema
