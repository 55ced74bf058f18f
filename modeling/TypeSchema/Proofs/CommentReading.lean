import Mathlib.Data.List.Chain
import Mathlib.Data.List.DropRight
import TypeSchema.Proofs.Codec
import TypeSchema.Proofs.CommentContent

namespace TypeSchema

/-- A line that does not end in a blank. -/
def Ended (line : List Char) : Prop := ∀ c ∈ line.getLast?, isBlank c = false

theorem ended_trimEnd (s : List Char) : Ended (trimEnd s) := by
  intro c hc
  rw [trimEnd, List.getLast?_reverse] at hc
  have hhead := List.head?_dropWhile_not isBlank s.reverse
  rw [hc] at hhead
  simpa using hhead

theorem trimStart_isSuffix (s : List Char) : trimStart s <:+ s := List.dropWhile_suffix _

theorem Ended.trimStart {line : List Char} (h : Ended line) : Ended (trimStart line) := by
  intro c hc
  obtain ⟨before, hline⟩ := trimStart_isSuffix line
  refine h c ?_
  rw [← hline, List.getLast?_append, hc]
  rfl

theorem Ended.isRow {line : List Char} (h : Ended line) (hbreak : '\n' ∉ line) : IsRow line :=
  ⟨hbreak, fun hlast => absurd (h '\r' hlast) (by decide)⟩

theorem trim_isInfix (s : List Char) : trim s <:+: s :=
  (trimEnd_isPrefix _).isInfix.trans (trimStart_isSuffix s).isInfix

/-- At the start of a text of lines, blank lines are lost, and the blanks of the first one that is kept. -/
theorem trimStart_joinWith (ls : List (List Char)) :
    ∃ ls', trimStart (joinWith ['\n'] ls) = joinWith ['\n'] ls' ∧
      (ls' = [] ∨ ∃ l rest, ls' = trimStart l :: rest ∧ l :: rest <:+ ls) := by
  induction ls with
  | nil => exact ⟨[], rfl, .inl rfl⟩
  | cons l ls ih =>
    by_cases hls : ls = []
    · exact ⟨[trimStart l], by simp [hls], .inr ⟨l, [], rfl, by simp [hls]⟩⟩
    · rw [joinWith_cons _ _ hls, List.append_assoc]
      by_cases hl : ∀ c ∈ l, isBlank c
      · have hbreak : ∀ c ∈ l ++ ['\n'], isBlank c := by
          intro c hc
          rcases List.mem_append.mp hc with hc | hc
          · exact hl c hc
          · exact List.mem_singleton.mp hc ▸ by decide
        obtain ⟨ls', hls', h⟩ := ih
        rw [← List.append_assoc, trimStart_blank hbreak, hls']
        exact ⟨ls', rfl, h.imp_right fun ⟨m, rest, hm, hs⟩ => ⟨m, rest, hm, hs.trans (List.suffix_cons _ _)⟩⟩
      · have hstart : (trimStart l).isEmpty = false := by
          rw [← Bool.not_eq_true, List.isEmpty_iff]
          exact fun hnil => hl (List.dropWhile_eq_nil_iff.mp hnil)
        refine ⟨trimStart l :: ls, ?_, .inr ⟨l, ls, rfl, List.suffix_refl _⟩⟩
        rw [joinWith_cons _ _ hls, trimStart, List.dropWhile_append]
        change (if (trimStart l).isEmpty then _ else _) = _
        rw [hstart, if_neg Bool.false_ne_true, List.append_assoc]
        rfl

/-- At the end, it is the last lines. -/
theorem trimEnd_joinWith (ls : List (List Char)) :
    ∃ ls', trimEnd (joinWith ['\n'] ls) = joinWith ['\n'] ls' ∧
      (ls' = [] ∨ ∃ rest l, ls' = rest ++ [trimEnd l] ∧ rest ++ [l] <+: ls) := by
  induction ls using List.reverseRecOn with
  | nil => exact ⟨[], rfl, .inl rfl⟩
  | append_singleton ls l ih =>
    by_cases hls : ls = []
    · exact ⟨[trimEnd l], by simp [hls], .inr ⟨[], l, rfl, by simp [hls]⟩⟩
    · rw [joinWith_append _ hls (by simp), joinWith_singleton]
      by_cases hl : ∀ c ∈ l, isBlank c
      · have hbreak : ∀ c ∈ ['\n'] ++ l, isBlank c := by
          intro c hc
          rcases List.mem_append.mp hc with hc | hc
          · exact List.mem_singleton.mp hc ▸ by decide
          · exact hl c hc
        obtain ⟨ls', hls', h⟩ := ih
        rw [List.append_assoc, trimEnd_blank hbreak, hls']
        exact ⟨ls', rfl, h.imp_right fun ⟨rest, m, hm, hp⟩ => ⟨rest, m, hm, hp.trans (List.prefix_append _ _)⟩⟩
      · refine ⟨ls ++ [trimEnd l], ?_, .inr ⟨ls, l, rfl, List.prefix_refl _⟩⟩
        have hend : (l.reverse.dropWhile isBlank).isEmpty = false := by
          rw [← Bool.not_eq_true, List.isEmpty_iff]
          exact fun hnil => hl (by simpa using List.dropWhile_eq_nil_iff.mp hnil)
        rw [joinWith_append _ hls (by simp), joinWith_singleton, trimEnd, List.reverse_append, List.dropWhile_append,
          hend, if_neg Bool.false_ne_true, List.reverse_append, List.reverse_reverse]
        rfl

/-- What trimming keeps of each line holds of all lines of a trimmed text. -/
theorem trim_joinWith {P : List Char → Prop} (hstart : ∀ l, P l → P (trimStart l)) (hend : ∀ l, P l → P (trimEnd l))
    {ls : List (List Char)} (h : ∀ l ∈ ls, P l) :
    ∃ ls', trim (joinWith ['\n'] ls) = joinWith ['\n'] ls' ∧ ∀ l ∈ ls', P l := by
  obtain ⟨ls₁, hls₁, hfirst⟩ := trimStart_joinWith ls
  have h₁ : ∀ l ∈ ls₁, P l := by
    rcases hfirst with rfl | ⟨l, rest, rfl, hs⟩
    · simp
    · intro m hm
      rcases List.mem_cons.mp hm with rfl | hm
      · exact hstart l (h l (hs.subset List.mem_cons_self))
      · exact h m (hs.subset (List.mem_cons_of_mem _ hm))
  obtain ⟨ls₂, hls₂, hlast⟩ := trimEnd_joinWith ls₁
  refine ⟨ls₂, by rw [trim, hls₁, hls₂], ?_⟩
  rcases hlast with rfl | ⟨rest, l, rfl, hp⟩
  · simp
  · intro m hm
    rcases List.mem_append.mp hm with hm | hm
    · exact h₁ m (hp.subset (List.mem_append_left _ hm))
    · rw [List.mem_singleton.mp hm]
      exact hend l (h₁ l (hp.subset (by simp)))

/-- A line that is not trimmed at the start stays the first one. -/
theorem trim_joinWith_cons {P : List Char → Prop} (hend : ∀ l, P l → P (trimEnd l)) {first : List Char}
    {more : List (List Char)} (htight : Tight first) (hne : first ≠ []) (h : ∀ l ∈ more, P l) :
    ∃ more', trim (joinWith ['\n'] (first :: more)) = joinWith ['\n'] (first :: more') ∧ ∀ l ∈ more', P l := by
  have hstart : trimStart (joinWith ['\n'] (first :: more)) = joinWith ['\n'] (first :: more) := by
    apply trimStart_tight
    by_cases hmore : more = []
    · simpa [hmore] using htight.1
    · rw [joinWith_cons _ _ hmore, List.append_assoc, List.head?_append, List.head?_eq_some_head hne, Option.some_or,
        ← List.head?_eq_some_head hne]
      exact htight.1
  have hkept : first <+: trimEnd (joinWith ['\n'] (first :: more)) := by
    by_cases hmore : more = []
    · simp [hmore, trimEnd_tight htight.2]
    · rw [joinWith_cons _ _ hmore, List.append_assoc, trimEnd_append htight.2]
      exact List.prefix_append _ _
  obtain ⟨ls, hls, hlast⟩ := trimEnd_joinWith (first :: more)
  rw [trim, hstart, hls]
  rcases hlast with rfl | ⟨rest, l, rfl, hp⟩
  · rw [hls] at hkept
    exact absurd (List.prefix_nil.mp hkept) hne
  · cases rest with
    | nil =>
      obtain rfl : l = first := by simpa using hp
      exact ⟨[], by rw [List.nil_append, trimEnd_tight htight.2], by simp⟩
    | cons m rest =>
      rw [List.cons_append, List.cons_prefix_cons] at hp
      obtain ⟨rfl, hp⟩ := hp
      refine ⟨rest ++ [trimEnd l], rfl, fun k hk => ?_⟩
      rcases List.mem_append.mp hk with hk | hk
      · exact h k (hp.subset (List.mem_append_left _ hk))
      · rw [List.mem_singleton.mp hk]
        exact hend l (h l (hp.subset (by simp)))

theorem prefix_of_prefix_append {p l rest : List Char} {d : Char} (hp : d ∉ p) (h : p <+: l ++ d :: rest) : p <+: l := by
  induction l generalizing p with
  | nil =>
    cases p with
    | nil => exact List.nil_prefix
    | cons c p =>
      rw [List.nil_append, List.cons_prefix_cons] at h
      exact absurd (h.1 ▸ List.mem_cons_self) hp
  | cons e l ih =>
    cases p with
    | nil => exact List.nil_prefix
    | cons c p =>
      rw [List.cons_append, List.cons_prefix_cons] at h
      rw [List.cons_prefix_cons]
      exact ⟨h.1, ih (fun hm => hp (List.mem_cons_of_mem _ hm)) h.2⟩

/-- A part stands on one side of a character that is not in it. -/
theorem infix_append {p l rest : List Char} {d : Char} (hp : d ∉ p) (h : p <:+: l ++ d :: rest) :
    p <:+: l ∨ p <:+: rest := by
  induction l with
  | nil =>
    rw [List.nil_append, List.infix_cons_iff] at h
    rcases h with h | h
    · exact .inl (prefix_of_prefix_append (l := []) hp h).isInfix
    · exact .inr h
  | cons e l ih =>
    rw [List.cons_append, List.infix_cons_iff] at h
    rcases h with h | h
    · exact .inl (prefix_of_prefix_append (l := e :: l) hp h).isInfix
    · exact (ih h).imp_left fun hl => hl.trans (List.suffix_cons _ _).isInfix

theorem infix_joinWith {p : List Char} (hp : '\n' ∉ p) (hne : p ≠ []) {ls : List (List Char)}
    (h : p <:+: joinWith ['\n'] ls) : ∃ l ∈ ls, p <:+: l := by
  induction ls with
  | nil => exact absurd (List.infix_nil.mp h) hne
  | cons l ls ih =>
    by_cases hls : ls = []
    · exact ⟨l, List.mem_cons_self, by simpa [hls] using h⟩
    · rw [joinWith_cons _ _ hls, List.append_assoc] at h
      rcases infix_append hp h with h | h
      · exact ⟨l, List.mem_cons_self, h⟩
      · obtain ⟨m, hm, h⟩ := ih h
        exact ⟨m, List.mem_cons_of_mem _ hm, h⟩

/-- A carriage return before a line feed stands at the end of a line. -/
theorem return_break {l rest : List Char} (hl : '\n' ∉ l) (h : ['\r', '\n'] <:+: l ++ '\n' :: rest) :
    l.getLast? = some '\r' ∨ ['\r', '\n'] <:+: rest := by
  induction l with
  | nil =>
    rw [List.nil_append, List.infix_cons_iff, List.cons_prefix_cons] at h
    exact .inr (h.resolve_left fun h => absurd h.1 (by decide))
  | cons d l ih =>
    simp only [List.mem_cons, not_or] at hl
    rw [List.cons_append, List.infix_cons_iff, List.cons_prefix_cons] at h
    rcases h with ⟨rfl, h⟩ | h
    · cases l with
      | nil => exact .inl rfl
      | cons e l =>
        rw [List.cons_append, List.cons_prefix_cons] at h
        exact absurd (h.1 ▸ List.mem_cons_self) hl.2
    · refine (ih hl.2 h).imp_left fun hlast => ?_
      rw [List.getLast?_cons, hlast, Option.getD_some]

theorem return_joinWith {ls : List (List Char)} (hls : ∀ l ∈ ls, '\n' ∉ l)
    (h : ['\r', '\n'] <:+: joinWith ['\n'] ls) : ∃ l ∈ ls, l.getLast? = some '\r' := by
  induction ls with
  | nil => exact absurd (List.infix_nil.mp h) (by simp)
  | cons l ls ih =>
    have hl := hls l List.mem_cons_self
    by_cases hnil : ls = []
    · rw [hnil, joinWith_singleton] at h
      exact absurd (h.subset (by simp)) hl
    · rw [joinWith_cons _ _ hnil, List.append_assoc] at h
      rcases return_break hl h with h | h
      · exact ⟨l, List.mem_cons_self, h⟩
      · obtain ⟨m, hm, h⟩ := ih (fun m hm => hls m (List.mem_cons_of_mem _ hm)) h
        exact ⟨m, List.mem_cons_of_mem _ hm, h⟩

namespace DocComment

/-- No escaped end mark is left in a text. -/
def Unmarked (s : List Char) : Prop := ¬['*', '\\', '/'] <:+: s

theorem Unmarked.within {s t : List Char} (h : Unmarked s) (ht : t <:+: s) : Unmarked t := fun hi => h (hi.trans ht)

theorem Unmarked.joinWith {ls : List (List Char)} (h : ∀ l ∈ ls, Unmarked l) : Unmarked (joinWith ['\n'] ls) := by
  intro hi
  obtain ⟨l, hl, hi⟩ := infix_joinWith (by decide) (by simp) hi
  exact h l hl hi

theorem of_unescape_eq_cons {s t : List Char} {c : Char} (hc : c ≠ '*') (h : unescape s = c :: t) :
    ∃ r, s = c :: r ∧ unescape r = t := by
  revert h
  fun_cases unescape s with
  | case1 rest =>
    intro h
    exact absurd (List.cons.inj h).1.symm hc
  | case2 d rest hne =>
    rintro ⟨⟩
    exact ⟨rest, rfl, rfl⟩
  | case3 => rintro ⟨⟩

theorem unmarked_unescape (s : List Char) : Unmarked (unescape s) := by
  fun_induction unescape s with
  | case1 rest ih =>
    rw [Unmarked, List.infix_cons_iff, List.infix_cons_iff]
    rintro (h | h | h)
    · simp at h
    · simp at h
    · exact ih h
  | case2 c rest hne ih =>
    rw [Unmarked, List.infix_cons_iff]
    rintro (h | h)
    · obtain ⟨t, ht⟩ := h
      obtain ⟨rfl, htail⟩ := List.cons.inj ht
      obtain ⟨r, rfl, hr⟩ := of_unescape_eq_cons (by decide) htail.symm
      obtain ⟨r', rfl, -⟩ := of_unescape_eq_cons (by decide) hr
      exact hne r' rfl rfl
    · exact ih h
  | case3 => simp [Unmarked]

theorem unmarked_content (raw : List Char) : Unmarked (content raw) := by
  rw [content, replaceAll_unescape]
  exact unmarked_unescape _

theorem withoutStar_isSuffix (line : List Char) : withoutStar line <:+ line := by
  unfold withoutStar
  have hstart := trimStart_isSuffix line
  split
  · next rest heq =>
    rw [heq] at hstart
    exact List.IsSuffix.trans ⟨['*', ' '], rfl⟩ hstart
  · next rest _ heq =>
    rw [heq] at hstart
    exact List.IsSuffix.trans ⟨['*'], rfl⟩ hstart
  · exact hstart

/-- What stands on a line of a comment. -/
theorem of_mem_commentLines {comment line : List Char} (h : line ∈ commentLines comment) :
    '\n' ∉ line ∧ Unmarked line := by
  obtain ⟨whole, hwhole, rfl⟩ := List.mem_map.mp h
  have hsuffix := withoutStar_isSuffix whole
  exact ⟨fun hm => not_mem_of_mem_lines hwhole (hsuffix.subset hm),
    (unmarked_content comment).within (hsuffix.isInfix.trans (infix_of_mem_lines hwhole))⟩

theorem startsTag_trimStart {line : List Char} : StartsTag (trimStart line) ↔ StartsTag line := by
  rw [StartsTag, StartsTag]
  have hidem : trimStart (trimStart line) = trimStart line := List.dropWhile_idempotent ..
  rw [hidem]

theorem StartsTag.of_trimEnd {line : List Char} (h : StartsTag (trimEnd line)) : StartsTag line := by
  obtain ⟨c, rest, hstart, hc⟩ := h
  obtain ⟨blank, hblank⟩ := trimEnd_isPrefix line
  refine ⟨c, rest ++ blank, ?_, hc⟩
  rw [← hblank, trimStart, List.dropWhile_append]
  change (if (trimStart (trimEnd line)).isEmpty then _ else trimStart (trimEnd line) ++ blank) = _
  rw [hstart]
  rfl

/-- A line that starts no tag, as it stands in a comment. -/
structure Plain (line : List Char) : Prop where
  noBreak : '\n' ∉ line
  unmarked : Unmarked line
  noTag : ¬StartsTag line

theorem Plain.trimStart {line : List Char} (h : Plain line) : Plain (trimStart line) where
  noBreak hm := h.noBreak ((trimStart_isSuffix line).subset hm)
  unmarked := h.unmarked.within (trimStart_isSuffix line).isInfix
  noTag ht := h.noTag (startsTag_trimStart.mp ht)

theorem Plain.trimEnd {line : List Char} (h : Plain line) : Plain (trimEnd line) where
  noBreak hm := h.noBreak ((trimEnd_isPrefix line).subset hm)
  unmarked := h.unmarked.within (trimEnd_isPrefix line).isInfix
  noTag ht := h.noTag ht.of_trimEnd

/-- What is read of the first line of a tag. -/
structure Opens (t : Tag) : Prop where
  name : ∃ c rest, t.name = c :: rest ∧ c.isAlpha ∧ ∀ d ∈ t.name, isBlank d = false
  unmarkedName : Unmarked t.name
  noBreak : '\n' ∉ t.first
  unmarked : Unmarked t.first
  tight : Tight t.first

theorem opens_of_tagOf? {line : List Char} {t : Tag} (hbreak : '\n' ∉ line) (hmark : Unmarked line)
    (h : tagOf? line = some (t.name, t.first)) : Opens t := by
  unfold tagOf? at h
  split at h
  · next c rest heq =>
    split at h
    · next hc =>
      obtain ⟨hname, hfirst⟩ := Prod.mk.inj (Option.some.inj h)
      have hword : c :: rest <:+: line :=
        (List.suffix_cons '@' _).isInfix.trans (heq ▸ trimStart_isSuffix line).isInfix
      have hnamed : t.name <:+: line := hname ▸ (List.takeWhile_prefix _).isInfix.trans hword
      have hrest : t.first <:+: line := hfirst ▸ (trim_isInfix _).trans ((List.dropWhile_suffix _).isInfix.trans hword)
      have hblank : isBlank c = false := by
        rw [← Bool.not_eq_true]
        exact fun hb => absurd hc (by simp [not_isAlpha_of_isBlank hb])
      refine ⟨⟨c, rest.takeWhile (!isBlank ·), ?_, hc, ?_⟩, hmark.within hnamed, fun hm => hbreak (hrest.subset hm),
        hmark.within hrest, hfirst ▸ tight_trim _⟩
      · rw [← hname, List.takeWhile_cons_of_pos (by simp [hblank])]
      · intro d hd
        rw [← hname] at hd
        simpa using List.mem_takeWhile_imp hd
    · cases h
  · cases h

/-- Lines are parted at the first lines of tags. -/
theorem splitTags_parts {ls : List (List Char)} (h : ∀ l ∈ ls, '\n' ∉ l ∧ Unmarked l) :
    (∀ l ∈ (splitTags ls).1, Plain l) ∧ ∀ t ∈ (splitTags ls).2, Opens t ∧ ∀ l ∈ t.more, Plain l := by
  induction ls with
  | nil => simp [splitTags]
  | cons l ls ih =>
    obtain ⟨hbefore, htags⟩ := ih fun m hm => h m (List.mem_cons_of_mem _ hm)
    obtain ⟨hbreak, hmark⟩ := h l List.mem_cons_self
    rw [splitTags]
    cases htag : tagOf? l with
    | none =>
      refine ⟨fun m hm => ?_, htags⟩
      rcases List.mem_cons.mp hm with rfl | hm
      · exact ⟨hbreak, hmark, tagOf?_eq_none.mp htag⟩
      · exact hbefore m hm
    | some tag =>
      refine ⟨by simp, fun t ht => ?_⟩
      rcases List.mem_cons.mp ht with rfl | ht
      · exact ⟨opens_of_tagOf? hbreak hmark htag, hbefore⟩
      · exact htags t ht

theorem dropBytes?_eq_some {n : Nat} {s rest : List Char} (h : dropBytes? n s = some rest) :
    ∃ before, s = before ++ rest ∧ byteSize before = n := by
  fun_induction dropBytes? n s with
  | case1 s => exact ⟨[], by simpa using h, rfl⟩
  | case2 => cases h
  | case3 n c s hc ih =>
    obtain ⟨before, hs, hsize⟩ := ih h
    exact ⟨c :: before, by rw [hs, List.cons_append], by rw [byteSize, hsize]; omega⟩
  | case4 => cases h

/-- A start that is no longer than the indentation is part of it. -/
theorem blank_of_byteSize_le {before rest : List Char} (h : byteSize before ≤ indentation (before ++ rest)) :
    ∀ c ∈ before, isBlank c := by
  induction before with
  | nil => simp
  | cons c before ih =>
    rw [indentation, List.cons_append] at h
    by_cases hc : isBlank c
    · rw [List.takeWhile_cons_of_pos hc, byteSize, byteSize] at h
      intro d hd
      rcases List.mem_cons.mp hd with rfl | hd
      · exact hc
      · exact ih (by rw [indentation]; omega) d hd
    · rw [List.takeWhile_cons_of_neg hc, byteSize, byteSize] at h
      have hpos := c.utf8Size_pos
      omega

theorem commonIndentation_le {lines : List (List Char)} {line : List Char} (h : line ∈ lines) (hne : trim line ≠ []) :
    commonIndentation lines ≤ indentation line := by
  have hmem : indentation line ∈ (lines.filter fun line => !(trim line).isEmpty).map indentation :=
    List.mem_map_of_mem (List.mem_filter.mpr ⟨h, by simpa using hne⟩)
  obtain ⟨least, hleast⟩ := Option.isSome_iff_exists.mp (List.isSome_min?_of_mem hmem)
  rw [commonIndentation, hleast, Option.getD_some]
  exact (List.min?_eq_some_iff.mp hleast).2 _ hmem

/-- A line without what all lines are indented by. -/
def dedent (lines : List (List Char)) (line : List Char) : List Char :=
  trimEnd ((dropBytes? (commonIndentation lines) line).getD [])

theorem trimStart_eq_nil_of_trim {line : List Char} (h : trim line = []) : trimStart line = [] := by
  have hblank : ∀ c ∈ (trimStart line).reverse, isBlank c := by
    apply List.dropWhile_eq_nil_iff.mp
    simpa [trim, trimEnd] using h
  cases hstart : trimStart line with
  | nil => rfl
  | cons c rest =>
    have hhead := List.head?_dropWhile_not isBlank line
    rw [show line.dropWhile isBlank = c :: rest from hstart] at hhead
    exact absurd (hblank c (by simp [hstart])) (by simpa using hhead)

theorem Plain.dedent {lines : List (List Char)} {line : List Char} (hline : line ∈ lines) (h : Plain line) :
    Plain (dedent lines line) := by
  apply Plain.trimEnd
  cases hdrop : dropBytes? (commonIndentation lines) line with
  | none => exact ⟨by simp, by simp [Unmarked], not_startsTag_nil⟩
  | some rest =>
    rw [Option.getD_some]
    obtain ⟨before, rfl, hsize⟩ := dropBytes?_eq_some hdrop
    have hsuffix : rest <:+ before ++ rest := List.suffix_append _ _
    refine ⟨fun hm => h.noBreak (hsuffix.subset hm), h.unmarked.within hsuffix.isInfix, fun ht => ?_⟩
    by_cases hblank : trim (before ++ rest) = []
    · -- a blank line starts nothing, and what is left of it is blank
      have hall := List.dropWhile_eq_nil_iff.mp (trimStart_eq_nil_of_trim hblank)
      obtain ⟨c, more, hstart, -⟩ := ht
      have hnil : TypeSchema.trimStart rest = [] :=
        List.dropWhile_eq_nil_iff.mpr fun c hc => hall c (List.mem_append_right _ hc)
      rw [hnil] at hstart
      cases hstart
    · have hbefore := blank_of_byteSize_le (hsize ▸ commonIndentation_le hline hblank)
      apply h.noTag
      rw [StartsTag, trimStart_blank hbefore]
      exact ht

/-- The lines of a text that a comment keeps line by line. -/
structure Kept (ls : List (List Char)) : Prop where
  noBreak : ∀ l ∈ ls, '\n' ∉ l
  unmarked : ∀ l ∈ ls, Unmarked l
  ended : ∀ l ∈ ls, Ended l
  tight : Tight (joinWith ['\n'] ls)
  nonempty : joinWith ['\n'] ls ≠ []

/-- The lines of a text that is read from a tag. Only the first one may look like the start of a tag. -/
structure Told (ls : List (List Char)) : Prop extends Kept ls where
  noTag : ∀ l ∈ ls.tail, ¬StartsTag l

theorem Kept.block {ls : List (List Char)} (h : Kept ls) : Block ls where
  isRow l hl := (h.ended l hl).isRow (h.noBreak l hl)
  safe l hl := unescape_escape (h.unmarked l hl)
  tight := h.tight
  nonempty := h.nonempty

theorem Block.lines_joinWith {ls : List (List Char)} (h : Block ls) : lines (joinWith ['\n'] ls) = ls :=
  TypeSchema.lines_joinWith h.isRow h.getLast?

theorem told_of_plain {ls : List (List Char)} (h : ∀ l ∈ ls, Plain l ∧ Ended l) (htight : Tight (joinWith ['\n'] ls))
    (hne : joinWith ['\n'] ls ≠ []) : Told ls where
  noBreak l hl := (h l hl).1.noBreak
  unmarked l hl := (h l hl).1.unmarked
  ended l hl := (h l hl).2
  noTag l hl := (h l (List.mem_of_mem_tail hl)).1.noTag
  tight := htight
  nonempty := hne

/-- A text of such lines that is trimmed. -/
theorem trim_plain {ls : List (List Char)} (h : ∀ l ∈ ls, Plain l ∧ Ended l) :
    ∃ ls', trim (joinWith ['\n'] ls) = joinWith ['\n'] ls' ∧ ∀ l ∈ ls', Plain l ∧ Ended l := by
  apply trim_joinWith
  · rintro l ⟨hplain, hended⟩
    exact ⟨hplain.trimStart, hended.trimStart⟩
  · rintro l ⟨hplain, -⟩
    exact ⟨hplain.trimEnd, ended_trimEnd l⟩
  · exact h

/-- The text of a tag, if it has one. -/
theorem told_tagText {t : Tag} (ho : Opens t) (hm : ∀ l ∈ t.more, Plain l) (hne : tagText t.first t.more ≠ []) :
    ∃ ls, Told ls ∧ tagText t.first t.more = joinWith ['\n'] ls := by
  have hmore : ∀ l ∈ t.more.map (dedent t.more), Plain l ∧ Ended l := by
    intro l hl
    obtain ⟨m, hmem, rfl⟩ := List.mem_map.mp hl
    exact ⟨(hm m hmem).dedent hmem, ended_trimEnd _⟩
  have htext : tagText t.first t.more = trim (joinWith ['\n'] (t.first :: t.more.map (dedent t.more))) := rfl
  have htight := tight_trim (joinWith ['\n'] (t.first :: t.more.map (dedent t.more)))
  rw [htext] at hne ⊢
  by_cases hfirst : t.first = []
  · have hall : ∀ l ∈ t.first :: t.more.map (dedent t.more), Plain l ∧ Ended l := by
      intro l hl
      rcases List.mem_cons.mp hl with rfl | hl
      · rw [hfirst]
        exact ⟨⟨by simp, by simp [Unmarked], not_startsTag_nil⟩, by simp [Ended]⟩
      · exact hmore l hl
    obtain ⟨ls, hls, hplain⟩ := trim_plain hall
    rw [hls] at hne htight ⊢
    exact ⟨ls, told_of_plain hplain htight hne, rfl⟩
  · obtain ⟨more, hls, hplain⟩ := trim_joinWith_cons (P := fun l => Plain l ∧ Ended l)
      (fun l h => ⟨h.1.trimEnd, ended_trimEnd l⟩) ho.tight hfirst hmore
    rw [hls] at hne htight ⊢
    refine ⟨t.first :: more, ⟨⟨?_, ?_, ?_, htight, hne⟩, fun l hl => (hplain l hl).1.noTag⟩, rfl⟩
    all_goals
      intro l hl
      rcases List.mem_cons.mp hl with rfl | hl
    · exact ho.noBreak
    · exact (hplain l hl).1.noBreak
    · exact ho.unmarked
    · exact (hplain l hl).1.unmarked
    · exact ho.tight.2
    · exact (hplain l hl).2

/-- The first line of a text starts where the text starts, and is not blank. -/
theorem Kept.first {first : List Char} {more : List (List Char)} (h : Kept (first :: more)) :
    first ≠ [] ∧ Tight first := by
  have hstart := h.tight.1
  by_cases hmore : more = []
  · exact ⟨by simpa [hmore] using h.nonempty, by simpa [hmore] using h.tight⟩
  · rw [joinWith_cons _ _ hmore] at hstart
    cases first with
    | nil => exact absurd (hstart '\n' rfl) (by decide)
    | cons c first => exact ⟨by simp, by simpa using hstart, h.ended _ List.mem_cons_self⟩

theorem Kept.exists_first {ls : List (List Char)} (h : Kept ls) : ∃ first more, ls = first :: more :=
  List.exists_cons_of_ne_nil h.block.ne_nil

/-- A text of lines is parted after the first one. -/
theorem span_joinWith {first : List Char} (h : '\n' ∉ first) (more : List (List Char)) :
    (joinWith ['\n'] (first :: more)).takeWhile (· != '\n') = first ∧
      ((joinWith ['\n'] (first :: more)).dropWhile (· != '\n')).drop 1 = joinWith ['\n'] more := by
  have hall : ∀ c ∈ first, (c != '\n') = true := fun c hc => by simpa using fun he : c = '\n' => h (he ▸ hc)
  by_cases hmore : more = []
  · rw [hmore, joinWith_singleton, List.takeWhile_eq_self_iff.mpr hall, List.dropWhile_eq_nil_iff.mpr hall]
    exact ⟨rfl, rfl⟩
  · rw [joinWith_cons _ _ hmore, List.append_assoc, List.takeWhile_append_of_pos hall, List.dropWhile_append_of_pos hall]
    simp

section

variable {ls : List (List Char)} (h : Kept ls) {s : String} (hs : s.toList = joinWith ['\n'] ls)
include h hs

theorem Kept.held : Held s where
  nonempty := hs ▸ h.nonempty
  tight := hs ▸ h.tight
  noBreak hi := by
    obtain ⟨l, hl, hlast⟩ := return_joinWith h.noBreak (hs ▸ hi)
    exact (h.block.isRow l hl).2 hlast
  noMark := hs ▸ Unmarked.joinWith h.unmarked

theorem Kept.lines_eq : lines s.toList = ls := hs ▸ h.block.lines_joinWith

theorem Kept.noTrailing : NoTrailing s := fun l hl => h.ended l (h.lines_eq hs ▸ hl)

end

/-- A text that is read from a tag is read from one again if its later lines are not all indented. -/
theorem Told.behind {ls : List (List Char)} (h : Told ls) {s : String} (hs : s.toList = joinWith ['\n'] ls)
    (hflush : Flush s) : Behind s where
  toHeld := h.held hs
  noTrailing := h.noTrailing hs
  flush := hflush
  noTag l hl := h.noTag l (h.lines_eq hs ▸ hl)

/-- A first line that is read as that of a tag without a meaning of its own, and is description. -/
structure Foreign (t : Tag) : Prop extends Opens t where
  worded : t.first ≠ []
  unknown : t.name ∉ ["title".toList, "example".toList, "default".toList, "see".toList]

/-- A part of a description: plain lines, or a tag without a meaning of its own. -/
structure Piece (ls : List (List Char)) : Prop extends Told ls where
  headed : ∀ l ∈ ls.head?, StartsTag l → ∃ t, Foreign t ∧ l = t.headline

/-- What can be said by tags that are read from a comment. -/
structure Said.Told (said : Said) : Prop where
  title : ∀ s ∈ said.title, Held s ∧ '\n' ∉ s.toList
  descriptions : ∀ d ∈ said.descriptions, ∃ ls, Piece ls ∧ d = joinWith ['\n'] ls
  examples : ∀ s ∈ said.examples, ∃ ls, DocComment.Told ls ∧ s.toList = joinWith ['\n'] ls
  defaults : ∀ d ∈ said.defaults, ∃ ls, DocComment.Told ls ∧ d = joinWith ['\n'] ls
  see : ∀ s ∈ said.see, ∃ ls, DocComment.Told ls ∧ s.toList = joinWith ['\n'] ls

theorem joinWith_behind (before first : List Char) (more : List (List Char)) :
    joinWith ['\n'] ((before ++ first) :: more) = before ++ joinWith ['\n'] (first :: more) := by
  by_cases hmore : more = []
  · simp [hmore]
  · simp [joinWith_cons _ _ hmore]

/-- A tag without a meaning of its own is a part of the description as it stands. -/
theorem Told.piece {t : Tag} (ho : Opens t) (hname : t.name ∉ ["title".toList, "example".toList, "default".toList,
    "see".toList]) {first : List Char} {more : List (List Char)} (h : Told (first :: more)) :
    Piece (('@' :: t.name ++ ' ' :: first) :: more) := by
  obtain ⟨hne, htight⟩ := h.first
  obtain ⟨_, _, -, -, hblank⟩ := ho.name
  have hjoin : joinWith ['\n'] (('@' :: t.name ++ ' ' :: first) :: more) =
      '@' :: t.name ++ ' ' :: joinWith ['\n'] (first :: more) := by
    have := joinWith_behind ('@' :: t.name ++ [' ']) first more
    simpa using this
  have hlast := List.getLast?_eq_some_getLast h.nonempty
  have hforeign : Foreign ⟨t.name, first, []⟩ := {
    name := ho.name
    unmarkedName := ho.unmarkedName
    noBreak := h.noBreak _ List.mem_cons_self
    unmarked := h.unmarked _ List.mem_cons_self
    tight := htight
    worded := hne
    unknown := hname }
  refine ⟨⟨⟨?_, ?_, ?_, ⟨?_, ?_⟩, ?_⟩, h.noTag⟩, ?_⟩
  · intro l hl
    rcases List.mem_cons.mp hl with rfl | hl
    · have hnamed : '\n' ∉ t.name := fun hm => absurd (hblank _ hm) (by decide)
      simpa [hnamed] using h.noBreak _ List.mem_cons_self
    · exact h.noBreak l (List.mem_cons_of_mem _ hl)
  · intro l hl
    rcases List.mem_cons.mp hl with rfl | hl
    · intro hi
      rcases infix_append (by decide) hi with hi | hi
      · rcases infix_append (l := []) (by decide) hi with hi | hi
        · simp at hi
        · exact ho.unmarkedName hi
      · exact h.unmarked _ List.mem_cons_self hi
    · exact h.unmarked l (List.mem_cons_of_mem _ hl)
  · intro l hl
    rcases List.mem_cons.mp hl with rfl | hl
    · intro c hc
      rw [List.getLast?_append, List.getLast?_cons, List.getLast?_eq_some_getLast hne] at hc
      exact htight.2 c (by simpa [List.getLast?_eq_some_getLast hne] using hc)
    · exact h.ended l (List.mem_cons_of_mem _ hl)
  · rw [hjoin]
    intro c hc
    obtain rfl : '@' = c := by simpa using hc
    decide
  · rw [hjoin]
    intro c hc
    have hend := h.tight.2
    rw [List.getLast?_append, List.getLast?_cons, hlast] at hc
    exact hend c (by simpa [hlast] using hc)
  · rw [hjoin]
    simp
  · intro l hl _
    obtain rfl : '@' :: t.name ++ ' ' :: first = l := by simpa using hl
    exact ⟨_, hforeign, by simp [Tag.headline, hne]⟩

/-- Plain lines are a part of the description, but for blanks at their ends. -/
theorem exists_piece {ls : List (List Char)} (h : ∀ l ∈ ls, Plain l ∧ Ended l) (hne : trim (joinWith ['\n'] ls) ≠ []) :
    ∃ ls', Piece ls' ∧ trim (joinWith ['\n'] ls) = joinWith ['\n'] ls' := by
  have htight := tight_trim (joinWith ['\n'] ls)
  obtain ⟨ls', htrim, hplain⟩ := trim_plain h
  rw [htrim] at hne htight ⊢
  have htold := told_of_plain hplain htight hne
  exact ⟨ls', ⟨htold, fun l hl ht => absurd ht (hplain l (List.mem_of_mem_head? hl)).1.noTag⟩, rfl⟩

/-- The first line of a text is a text of its own. -/
theorem Told.held_first {first : List Char} {more : List (List Char)} (h : Told (first :: more)) :
    Held (String.ofList first) ∧ '\n' ∉ (String.ofList first).toList := by
  obtain ⟨hne, htight⟩ := h.first
  have hbreak := h.noBreak _ List.mem_cons_self
  rw [String.toList_ofList]
  refine ⟨⟨?_, ?_, ?_, ?_⟩, hbreak⟩ <;> rw [String.toList_ofList]
  · exact hne
  · exact htight
  · exact fun hi => hbreak (hi.subset (by simp))
  · exact h.unmarked _ List.mem_cons_self

theorem Said.told_empty : Said.Told {} where
  title := by simp
  descriptions := by simp
  examples := by simp
  defaults := by simp
  see := by simp

/-- One more tag. -/
theorem Said.Told.add {said : Said} (h : said.Told) {t : Tag} (ho : Opens t) (hm : ∀ l ∈ t.more, Plain l) :
    (said.add t).Told := by
  by_cases hne : tagText t.first t.more = []
  · rw [Said.add, hne]
    exact h
  obtain ⟨ls, htold, htext⟩ := told_tagText ho hm hne
  have hsome : (tagText t.first t.more).isEmpty = false := by simpa using hne
  have hstring : (String.ofList (joinWith ['\n'] ls)).toList = joinWith ['\n'] ls := String.toList_ofList
  simp only [Said.add, hsome, Bool.false_eq_true, if_false]
  rw [htext]
  split
  · obtain ⟨first, more, rfl⟩ := htold.exists_first
    obtain ⟨hfirst, hmore⟩ := span_joinWith (htold.noBreak _ List.mem_cons_self) more
    have hplain : ∀ l ∈ more, Plain l ∧ Ended l := fun l hl =>
      have hl' := List.mem_cons_of_mem _ hl
      ⟨⟨htold.noBreak l hl', htold.unmarked l hl', htold.noTag l hl⟩, htold.ended l hl'⟩
    rw [hfirst, hmore, trim_tight htold.first.2]
    refine { h with title := fun s hs => ?_, descriptions := fun d hd => ?_ }
    · rcases Option.or_eq_some_iff.mp hs with hs | ⟨-, hs⟩
      · exact h.title s hs
      · obtain rfl : String.ofList first = s := Option.some.inj hs
        exact htold.held_first
    · by_cases hnil : trim (joinWith ['\n'] more) = []
      · simp only [hnil, List.isEmpty_nil, if_true] at hd
        exact h.descriptions d hd
      · have hrest : (trim (joinWith ['\n'] more)).isEmpty = false := by simpa using hnil
        simp only [hrest, Bool.false_eq_true, if_false, List.mem_append, List.mem_singleton] at hd
        rcases hd with hd | rfl
        · exact h.descriptions d hd
        · exact exists_piece hplain hnil
  · next htitle =>
    split
    · refine { h with examples := fun s hs => ?_ }
      rcases List.mem_append.mp hs with hs | hs
      · exact h.examples s hs
      · exact ⟨ls, htold, List.mem_singleton.mp hs ▸ hstring⟩
    · next hexample =>
      split
      · refine { h with defaults := fun d hd => ?_ }
        rcases List.mem_append.mp hd with hd | hd
        · exact h.defaults d hd
        · exact ⟨ls, htold, List.mem_singleton.mp hd⟩
      · next hdefault =>
        split
        · refine { h with see := fun s hs => ?_ }
          rcases List.mem_append.mp hs with hs | hs
          · exact h.see s hs
          · exact ⟨ls, htold, List.mem_singleton.mp hs ▸ hstring⟩
        · next hsee =>
          have hname : t.name ∉ ["title".toList, "example".toList, "default".toList, "see".toList] := by
            simp only [List.mem_cons, List.not_mem_nil, or_false, not_or]
            exact ⟨htitle, hexample, hdefault, hsee⟩
          refine { h with descriptions := fun d hd => ?_ }
          rcases List.mem_append.mp hd with hd | hd
          · exact h.descriptions d hd
          · obtain ⟨first, more, rfl⟩ := htold.exists_first
            refine ⟨_, htold.piece ho hname, ?_⟩
            have hjoin := joinWith_behind ('@' :: t.name ++ [' ']) first more
            rw [List.mem_singleton.mp hd]
            simpa using hjoin.symm

/-- What the tags of a comment say. -/
theorem Said.told_foldl {tags : List Tag} (h : ∀ t ∈ tags, Opens t ∧ ∀ l ∈ t.more, Plain l) {said : Said}
    (hs : said.Told) : (tags.foldl Said.add said).Told := by
  induction tags generalizing said with
  | nil => exact hs
  | cons t tags ih =>
    obtain ⟨ho, hm⟩ := h t List.mem_cons_self
    exact ih (fun u hu => h u (List.mem_cons_of_mem _ hu)) (hs.add ho hm)

/-- What the lines of a comment say. -/
theorem told_tells (comment : List Char) : (∃ before, (∀ l ∈ before, Plain l) ∧
    (tells (commentLines comment)).1 = text? (trim (joinWith ['\n'] before))) ∧ (tells (commentLines comment)).2.Told := by
  obtain ⟨hbefore, htags⟩ := splitTags_parts fun l (hl : l ∈ commentLines comment) => of_mem_commentLines hl
  generalize commentLines comment = ls at *
  exact ⟨⟨_, hbefore, rfl⟩, Said.told_foldl htags Said.told_empty⟩

end DocComment

end TypeSchema
