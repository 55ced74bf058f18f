import TypeSchema.Proofs.CommentLines
import TypeSchema.Proofs.Lexemes
import TypeSchema.Proofs.Plain
import TypeSchema.Syntax.Printer

namespace TypeSchema

/-- No end mark. -/
def Open (s : List Char) : Prop := ¬['*', '/'] <:+: s

theorem open_cons {c : Char} (hc : c ≠ '*') {s : List Char} (hs : Open s) : Open (c :: s) := by
  intro h
  rcases List.infix_cons_iff.mp h with h | h
  · exact hc (List.cons_prefix_cons.mp h).1.symm
  · exact hs h

/-- Both characters of an end mark are needed. -/
theorem open_of_not_mem {s : List Char} (h : '*' ∉ s ∨ '/' ∉ s) : Open s := fun hi =>
  h.elim (fun hs => hs (hi.subset (by simp))) (fun hs => hs (hi.subset (by simp)))

theorem Open.of_isInfix {s t : List Char} (hs : Open s) (h : t <:+: s) : Open t := fun ht => hs (ht.trans h)

/-- Texts without end marks, unless a star before a slash makes one where they meet. -/
theorem open_append {s t : List Char} (hs : Open s) (ht : Open t)
    (h : s.getLast? ≠ some '*' ∨ t.head? ≠ some '/') : Open (s ++ t) := by
  induction s with
  | nil => exact ht
  | cons c s ih =>
    have hrest : Open (s ++ t) := by
      refine ih (hs.of_isInfix (List.suffix_cons c s).isInfix) ?_
      cases s with
      | nil => simp
      | cons d s => simpa [List.getLast?_cons_cons] using h
    intro hi
    rcases List.infix_cons_iff.mp hi with hi | hi
    · obtain ⟨rfl, more, hm⟩ := List.cons_prefix_cons.mp hi
      cases s with
      | nil =>
        change ['/'] ++ more = t at hm
        simp [← hm] at h
      | cons d s =>
        obtain ⟨rfl, -⟩ := List.cons.inj hm
        exact hs ⟨[], s, rfl⟩
    · exact hrest hi

theorem open_escape (s : List Char) : Open (DocComment.escape s) := by
  fun_induction DocComment.escape s with
  | case1 rest ih =>
    intro h
    rcases List.infix_cons_iff.mp h with h | h
    · exact absurd (List.cons_prefix_cons.mp (List.cons_prefix_cons.mp h).2).1 (by decide)
    · exact open_cons (by decide) (open_cons (by decide) ih) h
  | case2 c rest hne ih =>
    intro h
    rcases List.infix_cons_iff.mp h with h | h
    · obtain ⟨hc, more, hm⟩ := List.cons_prefix_cons.mp h
      obtain ⟨r, hr, -⟩ := DocComment.of_escape_eq_cons (by decide) hm.symm
      exact hne r hc.symm hr
    · exact ih h
  | case3 => exact fun h => absurd (List.infix_nil.mp h) (by simp)

/-- A comment goes on over a text without end mark, unless a star before a slash makes one. -/
theorem blockCommentLength_append {s t : List Char} (hs : Open s) (hlast : s.getLast? ≠ some '*' ∨ t.head? ≠ some '/') :
    Lexer.blockCommentLength (s ++ t) = s.length + Lexer.blockCommentLength t := by
  induction s with
  | nil => simp
  | cons c s ih =>
    have hopen : Open s := hs.of_isInfix (List.suffix_cons c s).isInfix
    have hne : ∀ rest, c = '*' → s ++ t ≠ '/' :: rest := by
      rintro rest rfl h
      cases s with
      | nil =>
        rw [List.nil_append] at h
        simp [h] at hlast
      | cons d s =>
        obtain ⟨rfl, -⟩ := List.cons.inj h
        exact hs ⟨[], s, rfl⟩
    have hlast' : s.getLast? ≠ some '*' ∨ t.head? ≠ some '/' := by
      cases s with
      | nil => simp
      | cons d s => simpa [List.getLast?_cons_cons] using hlast
    rw [List.cons_append, Lexer.blockCommentLength.eq_2 _ _ hne, ih hopen hlast', List.length_cons]
    omega

theorem trimEnd_lineOfReversed (line : List Char) : trimEnd (lineOfReversed line) = trimEnd line.reverse := by
  unfold lineOfReversed
  split
  · next more =>
    rw [List.reverse_cons, trimEnd_blank]
    intro c hc
    rw [List.mem_singleton.mp hc]
    decide
  · rfl

theorem linesFrom_append {line : List Char} (h : '\n' ∉ line) (before rest : List Char) :
    linesFrom before (line ++ rest) = linesFrom (line.reverse ++ before) rest := by
  induction line generalizing before with
  | nil => rfl
  | cons c line ih =>
    simp only [List.mem_cons, not_or] at h
    rw [List.cons_append, linesFrom.eq_3 _ _ _ (Ne.symm h.1), ih h.2]
    simp

/-- Texts without line feeds are the lines of what they are joined to, but for blanks at their ends. -/
theorem map_trimEnd_lines {ls : List (List Char)} (h : ∀ l ∈ ls, '\n' ∉ l) (hlast : ls.getLast? ≠ some []) :
    (lines (joinWith ['\n'] ls)).map trimEnd = ls.map trimEnd := by
  induction ls with
  | nil => rfl
  | cons l ls ih =>
    have hl := h l List.mem_cons_self
    by_cases hls : ls = []
    · subst hls
      have hne : l ≠ [] := by simpa using hlast
      have := linesFrom_append hl [] []
      rw [List.append_nil, List.append_nil] at this
      rw [joinWith_singleton, lines, this]
      simp [linesFrom, hne]
    · have hlast' : ls.getLast? ≠ some [] := by
        obtain ⟨m, ms, rfl⟩ := List.exists_cons_of_ne_nil hls
        simpa [List.getLast?_cons_cons] using hlast
      rw [joinWith_cons _ _ hls, List.append_assoc, lines, linesFrom_append hl, List.singleton_append, linesFrom,
        List.map_cons, trimEnd_lineOfReversed, ← lines, ih (fun m hm => h m (List.mem_cons_of_mem _ hm)) hlast']
      simp

theorem trim_trimEnd (s : List Char) : trim (trimEnd s) = trim s := by
  have hs : s = trimEnd s ++ (s.reverse.takeWhile isBlank).reverse := by
    rw [trimEnd, ← List.reverse_append, List.takeWhile_append_dropWhile, List.reverse_reverse]
  have := trim_append (b := (s.reverse.takeWhile isBlank).reverse)
    (fun c hc => List.mem_takeWhile_imp (List.mem_reverse.mp hc)) (trimEnd s)
  rw [← hs] at this
  exact this.symm

theorem map_trim_lines {ls : List (List Char)} (h : ∀ l ∈ ls, '\n' ∉ l) (hlast : ls.getLast? ≠ some []) :
    (lines (joinWith ['\n'] ls)).map trim = ls.map trim := by
  have htrim : trim = trim ∘ trimEnd := funext fun s => (trim_trimEnd s).symm
  rw [htrim, ← List.map_map, map_trimEnd_lines h hlast, List.map_map]

def indent (level : Nat) : List Char := (Printer.indentation level).toList

theorem indent_eq (level : Nat) : indent level = List.replicate (4 * level) ' ' := by
  simp [indent, Printer.indentation]

/-- A comment as it is printed, from its first character on. -/
def commentChars (level : Nat) (doc : String) : List Char :=
  joinWith ('\n' :: indent level) ((lines doc.toList).map trimEnd)

/-- A text that is printed as a doc comment which says the same. -/
structure IsDoc (doc : String) : Prop where
  comment : ∀ level, IsComment (commentChars level doc)
  opens : ∀ level, "/**".toList <+: commentChars level doc
  tidy : ∀ level, tidy (String.ofList (commentChars level doc)) = tidy doc

theorem joinWith_flatMap (separator l : List Char) (ls : List (List Char)) :
    joinWith separator (l :: ls) = l ++ ls.flatMap (separator ++ ·) := by
  induction ls generalizing l with
  | nil => simp
  | cons m ls ih => rw [joinWith_cons _ _ (List.cons_ne_nil _ _), ih, List.flatMap_cons]; simp

theorem tidy_commentChars {doc : String} (hlast : ((lines doc.toList).map trimEnd).getLast? ≠ some []) (level : Nat) :
    tidy (String.ofList (commentChars level doc)) = tidy doc := by
  rw [tidy, tidy, String.toList_ofList]
  congr 2
  have hline : ∀ l ∈ (lines doc.toList).map trimEnd, '\n' ∉ l := by
    intro l hl hm
    obtain ⟨line, hmem, rfl⟩ := List.mem_map.mp hl
    exact not_mem_of_mem_linesFrom (by simp) hmem ((trimEnd_isPrefix line).subset hm)
  have hmap : (lines doc.toList).map trim = ((lines doc.toList).map trimEnd).map trim := by
    simp [Function.comp_def, trim_trimEnd]
  rw [commentChars, hmap]
  generalize (lines doc.toList).map trimEnd = ls at hline hlast
  cases ls with
  | nil => rfl
  | cons l ls =>
    have hblank : ∀ c ∈ indent level, isBlank c := by
      rw [indent_eq]
      intro c hc
      rw [List.eq_of_mem_replicate hc]
      decide
    have hindent : joinWith ('\n' :: indent level) (l :: ls) = joinWith ['\n'] (l :: ls.map (indent level ++ ·)) := by
      rw [joinWith_flatMap, joinWith_flatMap, List.flatMap_map]
      simp
    rw [hindent, map_trim_lines]
    · simp [Function.comp_def, trim, trimStart_blank hblank]
    · intro m hm
      rcases List.mem_cons.mp hm with rfl | hm
      · exact hline _ List.mem_cons_self
      · obtain ⟨k, hk, rfl⟩ := List.mem_map.mp hm
        simp only [List.mem_append, not_or]
        refine ⟨fun hi => ?_, hline k (List.mem_cons_of_mem _ hk)⟩
        rw [indent_eq] at hi
        exact absurd (List.eq_of_mem_replicate hi) (by decide)
    · rcases List.eq_nil_or_concat ls with rfl | ⟨ms, m, rfl⟩
      · simpa using hlast
      · simp only [List.concat_eq_append, List.getLast?_cons, List.map_append, List.map_singleton,
          List.getLast?_concat, Option.getD_some] at hlast ⊢
        simp_all

open DocComment

theorem open_singleton (c : Char) : Open [c] := fun h => absurd h.length_le (by simp)

theorem open_starred {line : List Char} (h : Open line) : Open (starred line) := by
  rw [starred]
  split
  · exact open_cons (by decide) (open_singleton '*')
  · intro hi
    rcases List.infix_cons_iff.mp hi with hi | hi
    · exact absurd (List.cons_prefix_cons.mp hi).1 (by decide)
    · rcases List.infix_cons_iff.mp hi with hi | hi
      · exact absurd (List.cons_prefix_cons.mp (List.cons_prefix_cons.mp hi).2).1 (by decide)
      · exact open_cons (by decide) h hi

/-- The end of a comment, on the line of what is before it. -/
theorem blockCommentLength_end {before : List Char} (h : Open before) (s : List Char) :
    Lexer.blockCommentLength (before ++ (" */".toList ++ s)) = before.length + 3 := by
  rw [blockCommentLength_append h (.inr (by simp))]
  rfl

theorem open_break (level : Nat) : Open ('\n' :: indent level) := by
  refine open_cons (by decide) ?_
  rw [indent_eq]
  intro h
  exact absurd (List.eq_of_mem_replicate (h.subset List.mem_cons_self)) (by decide)

theorem getLast?_break (level : Nat) : ('\n' :: indent level).getLast? ≠ some '*' := by
  intro h
  rcases List.mem_cons.mp (List.mem_of_getLast? h) with h | h
  · exact absurd h (by decide)
  · rw [indent_eq] at h
    exact absurd (List.eq_of_mem_replicate h) (by decide)

theorem blockCommentLength_lines (level : Nat) {ls : List (List Char)} (h : ∀ l ∈ ls, Open l) (s : List Char) :
    Lexer.blockCommentLength
        (ls.flatMap ('\n' :: indent level ++ ·) ++ ('\n' :: indent level ++ " */".toList ++ s)) =
      (ls.flatMap ('\n' :: indent level ++ ·) ++ ('\n' :: indent level ++ " */".toList)).length := by
  induction ls with
  | nil =>
    rw [List.flatMap_nil, List.nil_append, List.nil_append, List.append_assoc, blockCommentLength_end (open_break level)]
    simp
  | cons l ls ih =>
    have hstart : (ls.flatMap ('\n' :: indent level ++ ·) ++ ('\n' :: indent level ++ " */".toList ++ s)).head? ≠
        some '/' := by
      cases ls <;> simp
    rw [List.flatMap_cons, List.append_assoc, List.append_assoc, blockCommentLength_append (open_break level)
      (.inl (getLast?_break level)), blockCommentLength_append (h l List.mem_cons_self) (.inr hstart),
      ih fun m hm => h m (List.mem_cons_of_mem _ hm)]
    simp only [List.length_append]
    omega

/-- A comment whose first and last line hold the comment marks. -/
theorem isDoc_lines {ms : List (List Char)} (hopen : ∀ m ∈ ms, Open m) (hline : ∀ m ∈ ms, '\n' ∉ m) :
    IsDoc (String.ofList (joinWith ['\n'] ("/**".toList :: (ms ++ [" */".toList])))) := by
  have hlines : (lines (joinWith ['\n'] ("/**".toList :: (ms ++ [" */".toList])))).map trimEnd =
      "/**".toList :: (ms.map trimEnd ++ [" */".toList]) := by
    rw [map_trimEnd_lines]
    · simp only [List.map_cons, List.map_append, List.map_nil]
      rfl
    · simp only [List.mem_cons, List.mem_append, List.not_mem_nil, or_false]
      rintro l (rfl | hl | rfl)
      · decide
      · exact hline l hl
      · decide
    · rw [← List.cons_append, List.getLast?_concat]
      decide
  have hchars (level : Nat) : commentChars level
      (String.ofList (joinWith ['\n'] ("/**".toList :: (ms ++ [" */".toList])))) =
      '/' :: '*' :: ('*' :: ((ms.map trimEnd).flatMap ('\n' :: indent level ++ ·) ++
        ('\n' :: indent level ++ " */".toList))) := by
    rw [commentChars, String.toList_ofList, hlines, joinWith_flatMap, List.flatMap_append]
    simp
  refine ⟨fun level => ⟨_, hchars level, fun s => ?_⟩, fun level => ?_, tidy_commentChars ?_⟩
  · have hlen := @blockCommentLength_lines level (ms.map trimEnd) (by
      intro l hl
      obtain ⟨m, hm, rfl⟩ := List.mem_map.mp hl
      exact (hopen m hm).of_isInfix (trimEnd_isPrefix m).isInfix) s
    have hstart : ((ms.map trimEnd).flatMap ('\n' :: indent level ++ ·) ++
        ('\n' :: indent level ++ " */".toList ++ s)).head? ≠ some '/' := by
      cases ms <;> simp
    rw [List.cons_append, List.append_assoc, ← List.singleton_append,
      blockCommentLength_append (open_singleton '*') (.inr hstart), hlen]
    simp
    omega
  · rw [hchars]
    exact ⟨_, rfl⟩
  · rw [String.toList_ofList, hlines, ← List.cons_append, List.getLast?_concat]
    decide

/-- A comment on one line, whose end mark is the first one behind its opening. -/
def IsLineDoc (doc : String) : Prop :=
  ∃ s, doc.toList = "/**".toList ++ s ++ "*/".toList ∧ Open ('*' :: s) ∧ '\n' ∉ s

namespace IsLineDoc

variable {doc : String} (h : IsLineDoc doc)
include h

theorem lines : (lines doc.toList).map trimEnd = [doc.toList] := by
  obtain ⟨s, hdoc, -, hline⟩ := h
  have htight : trimEnd doc.toList = doc.toList := by
    refine trimEnd_tight fun c hc => ?_
    rw [hdoc, show "*/".toList = ['*'] ++ ['/'] from rfl, ← List.append_assoc, List.getLast?_concat] at hc
    obtain rfl : '/' = c := by simpa using hc
    decide
  have := @map_trimEnd_lines [doc.toList] (by simp [hdoc, hline]) (by simp [hdoc])
  rwa [joinWith_singleton, List.map_singleton, htight] at this

/-- It is printed as it is. -/
theorem commentChars (level : Nat) : commentChars level doc = doc.toList := by
  rw [TypeSchema.commentChars, h.lines]
  rfl

theorem isDoc : IsDoc doc := by
  have hchars := h.commentChars
  have hlines := h.lines
  obtain ⟨s, hdoc, hopen, -⟩ := h
  refine ⟨fun level => ⟨'*' :: s ++ "*/".toList, by rw [hchars, hdoc]; rfl, fun rest => ?_⟩, fun level => ?_,
    tidy_commentChars ?_⟩
  · rw [List.append_assoc, blockCommentLength_append hopen (.inr (by simp))]
    simp [Lexer.blockCommentLength]
  · rw [hchars, hdoc, List.append_assoc]
    exact ⟨_, rfl⟩
  · rw [hlines, hdoc]
    simp

end IsLineDoc

theorem isDoc_line {s : List Char} (hopen : Open s) (hline : '\n' ∉ s) :
    IsDoc (String.ofList ("/** ".toList ++ s ++ " */".toList)) := by
  refine IsLineDoc.isDoc ⟨' ' :: (s ++ [' ']), by simp, ?_, by simp [hline]⟩
  have hbefore : Open (s ++ [' ']) := open_append hopen (open_cons (by decide) fun h => absurd h.length_le (by simp))
    (.inr (by simp))
  intro h
  rcases List.infix_cons_iff.mp h with h | h
  · exact absurd (List.cons_prefix_cons.mp (List.cons_prefix_cons.mp h).2).1 (by decide)
  · exact open_cons (by decide) hbefore h

/-- Annotations are written on one line or between two, and nothing that is written of them ends the comment. -/
theorem render_cases {a : Annotations} {inferred : Option String} {doc : String}
    (h : render a inferred = some doc) :
    (∃ ls ≠ [], (∀ l ∈ ls, Open l ∧ '\n' ∉ l) ∧
      doc = String.ofList ("/**\n".toList ++ joinWith ['\n'] ls ++ "\n */".toList)) ∨
    ∃ text, Open text ∧ '\n' ∉ text ∧ doc = String.ofList ("/** ".toList ++ text ++ " */".toList) := by
  simp only [render, replaceAll_escape] at h
  generalize trim (joinWith "\n\n".toList (sections a inferred)) = s at h
  have hopen := open_escape s
  generalize DocComment.escape s = text at h hopen
  split at h
  · cases h
  · split at h
    · next hbreak =>
      refine .inl ⟨(lines text).map starred, ?_, fun m hm => ?_, (Option.some.inj h).symm⟩
      · simp only [ne_eq, List.map_eq_nil_iff]
        refine lines_ne_nil ?_
        rintro rfl
        cases hbreak
      · obtain ⟨l, hl, rfl⟩ := List.mem_map.mp hm
        refine ⟨open_starred (hopen.of_isInfix (by simpa using infix_of_mem_linesFrom hl)), ?_⟩
        have hline : '\n' ∉ l := not_mem_of_mem_linesFrom (by simp) hl
        rw [starred]
        split
        · decide
        · simpa using hline
    · next hbreak => exact .inr ⟨text, hopen, by simpa using hbreak, (Option.some.inj h).symm⟩

/-- Annotations are written as a comment. -/
theorem isDoc_render {a : Annotations} {inferred : Option String} {doc : String}
    (h : render a inferred = some doc) : IsDoc doc := by
  rcases render_cases h with ⟨ls, hne, hls, rfl⟩ | ⟨text, hopen, hline, rfl⟩
  · have := isDoc_lines (fun l hl => (hls l hl).1) (fun l hl => (hls l hl).2)
    rw [joinWith_cons _ _ (by simp), joinWith_append _ hne (by simp), joinWith_singleton] at this
    simpa using this
  · exact isDoc_line hopen hline

end TypeSchema
