import Mathlib.Data.List.Infix
import TypeSchema.Proofs.CommentTags

namespace TypeSchema

open DocComment

/-- A text that a comment keeps. -/
structure Clean (s : String) : Prop where
  nonempty : s.toList ≠ []
  tight : Tight s.toList
  noReturn : '\r' ∉ s.toList
  noMark : ¬['*', '\\', '/'] <:+: s.toList
  noTag : ∀ line ∈ lines s.toList, ¬StartsTag line

instance (s : String) : Decidable (Clean s) :=
  decidable_of_iff (s.toList ≠ [] ∧ Tight s.toList ∧ '\r' ∉ s.toList ∧
      (∀ t ∈ s.toList.tails, ¬['*', '\\', '/'] <+: t) ∧ ∀ line ∈ lines s.toList, ¬StartsTag line)
    ⟨fun ⟨hn, ht, hr, hm, hl⟩ => ⟨hn, ht, hr, fun hi => by
        obtain ⟨t, hp, hs⟩ := List.infix_iff_prefix_suffix.mp hi
        exact hm t ((List.mem_tails t _).mpr hs) hp, hl⟩,
      fun h => ⟨h.nonempty, h.tight, h.noReturn, fun t ht hp =>
        h.noMark (hp.isInfix.trans ((List.mem_tails t _).mp ht).isInfix), h.noTag⟩⟩

/-- No line ends in a blank. -/
def NoTrailing (s : String) : Prop := ∀ line ∈ lines s.toList, ∀ c ∈ line.getLast?, isBlank c = false

instance (s : String) : Decidable (NoTrailing s) :=
  decidable_of_iff ((lines s.toList).all fun line => line.getLast?.all (!isBlank ·))
    (by simp [NoTrailing, Option.all_eq_true])

/-- If there are later lines, one of them is not indented. -/
def Flush (s : String) : Prop :=
  (lines s.toList).tail ≠ [] → ∃ line ∈ (lines s.toList).tail, ∃ c ∈ line.head?, isBlank c = false

instance (s : String) : Decidable (Flush s) :=
  decidable_of_iff ((lines s.toList).tail = [] ∨ (lines s.toList).tail.any fun line => line.head?.any (!isBlank ·))
    (by simp [Flush, Option.any_eq_true, Decidable.or_iff_not_imp_left])

/-- A list is a list: of more than one text, none of them twice. -/
def OneOrMany.Proper : OneOrMany → Prop
  | one _ => True
  | many texts => 2 ≤ texts.length ∧ texts.Nodup

instance : DecidablePred OneOrMany.Proper
  | .one _ => inferInstanceAs (Decidable True)
  | .many texts => inferInstanceAs (Decidable (2 ≤ texts.length ∧ texts.Nodup))

/-- Annotations that a comment keeps. -/
structure Annotations.Canonical (a : Annotations) : Prop where
  description : ∀ s ∈ a.description, Clean s ∧ s.toList.head? ≠ some '*'
  title : ∀ s ∈ a.title, Clean s ∧ '\n' ∉ s.toList
  examples : ∀ texts ∈ a.examples, texts.Proper ∧ ∀ s ∈ texts.toList, Clean s ∧ NoTrailing s
  default : ∀ v ∈ a.defaultValue, ∃ s, v = .string s ∧ Clean s ∧ NoTrailing s ∧ Flush s
  see : ∀ texts ∈ a.see, texts.Proper ∧ ∀ s ∈ texts.toList, Clean s ∧ NoTrailing s ∧ Flush s

theorem Annotations.canonical_empty : Canonical {} where
  description := by simp
  title := by simp
  examples := by simp
  default := by simp
  see := by simp

theorem Annotations.Canonical.described {s : String} (h : Clean s) (hs : s.toList.head? ≠ some '*') :
    Canonical { description := some s } :=
  { canonical_empty with description := fun t ht => by cases ht; exact ⟨h, hs⟩ }

/-- A text that a comment holds line by line: not blank at its ends, and with nothing in it that stands for something
else. Its lines may start tags. -/
structure Held (s : String) : Prop where
  nonempty : s.toList ≠ []
  tight : Tight s.toList
  noBreak : ¬['\r', '\n'] <:+: s.toList
  noMark : ¬['*', '\\', '/'] <:+: s.toList

theorem Clean.held {s : String} (h : Clean s) : Held s where
  nonempty := h.nonempty
  tight := h.tight
  noBreak hi := h.noReturn (hi.subset List.mem_cons_self)
  noMark := h.noMark

namespace Held

variable {s : String} (h : Held s)
include h

theorem joinWith_lines : joinWith ['\n'] (lines s.toList) = s.toList := by
  refine TypeSchema.joinWith_lines h.noBreak fun hl => ?_
  exact absurd (h.tight.2 '\n' hl) (by decide)

theorem isRow {line : List Char} (hl : line ∈ lines s.toList) : IsRow line := by
  have hj := h.joinWith_lines
  refine isRow_of_joinWith (fun l hl => not_mem_of_mem_lines hl) ?_ ?_ hl <;> rw [hj]
  · exact h.noBreak
  · exact fun hlast => absurd (h.tight.2 '\r' hlast) (by decide)

theorem block : Block (lines s.toList) where
  isRow _ hl := h.isRow hl
  safe _ hl := unescape_escape fun hm => h.noMark (hm.trans (infix_of_mem_lines hl))
  tight := h.joinWith_lines.symm ▸ h.tight
  nonempty := h.joinWith_lines.symm ▸ h.nonempty

theorem exists_lines : ∃ first more, lines s.toList = first :: more :=
  List.exists_cons_of_ne_nil h.block.ne_nil

/-- The first line starts where the text starts. -/
theorem head?_first {first : List Char} {more : List (List Char)} (hl : lines s.toList = first :: more) :
    first ≠ [] ∧ first.head? = s.toList.head? := by
  have hj := h.joinWith_lines
  have hstart := h.tight.1
  rw [hl] at hj
  by_cases hm : more = []
  · rw [hm, joinWith_singleton] at hj
    exact ⟨hj ▸ h.nonempty, by rw [hj]⟩
  · rw [joinWith_cons _ _ hm] at hj
    cases first with
    | nil =>
      rw [← hj] at hstart
      exact absurd (hstart '\n' rfl) (by decide)
    | cons c first => exact ⟨by simp, by rw [← hj]; rfl⟩

end Held

namespace DocComment

/-- A tag with its text behind its name. -/
def lineTag (name : String) (s : String) : Tag :=
  ⟨name.toList, (lines s.toList).headD [], (lines s.toList).tail⟩

/-- A tag with its text below its name, four spaces to the right. -/
def blockTag (name : String) (s : String) : Tag :=
  ⟨name.toList, [], (lines s.toList).map ("    ".toList ++ ·)⟩

/-- The title that a comment gives. -/
def shownTitle (a : Annotations) (inferred : Option String) : Option String :=
  if a.title = inferred then none else a.title

/-- The tags of a comment. -/
def tagsOf (a : Annotations) (inferred : Option String) : List Tag :=
  (shownTitle a inferred).toList.map (lineTag "title") ++
  (Annotations.listed a.examples).map (blockTag "example") ++
  (a.defaultValue.map Annotations.defaultText).toList.map (lineTag "default") ++
  (Annotations.listed a.see).map (lineTag "see")

/-- A word that names a tag. -/
def IsTagName (name : String) : Prop :=
  ∃ c rest, name.toList = c :: rest ∧ c.isAlpha ∧ ∀ d ∈ name.toList, isBlank d = false ∧ d ≠ '*'

theorem IsTagName.of_all {name : String} {c : Char} {rest : List Char} (h : name.toList = c :: rest) (hc : c.isAlpha)
    (hall : name.toList.all fun d => !isBlank d && d != '*') : IsTagName name :=
  ⟨c, rest, h, hc, by simpa using hall⟩

theorem safe_cons {c : Char} {s : List Char} (hc : c ≠ '*') (hs : unescape (escape s) = s) :
    unescape (escape (c :: s)) = c :: s := by
  rw [escape_cons hc, unescape_cons hc, hs]

theorem safe_append {before s : List Char} (hb : ∀ c ∈ before, c ≠ '*') (hs : unescape (escape s) = s) :
    unescape (escape (before ++ s)) = before ++ s := by
  induction before with
  | nil => exact hs
  | cons c before ih => exact safe_cons (hb c List.mem_cons_self) (ih fun d hd => hb d (List.mem_cons_of_mem _ hd))

section Tags

variable {name s : String} (hname : IsTagName name) (h : Held s)
include h

theorem lineTag_lines : (lineTag name s).lines = ('@' :: name.toList ++ ' ' :: (lines s.toList).headD []) ::
    (lines s.toList).tail := by
  obtain ⟨first, more, hl⟩ := h.exists_lines
  have := (h.head?_first hl).1
  simp [Tag.lines, Tag.headline, lineTag, hl, this]

theorem joinWith_lineTag : joinWith ['\n'] (lineTag name s).lines = '@' :: name.toList ++ ' ' :: s.toList := by
  rw [lineTag_lines h]
  have hj := h.joinWith_lines
  obtain ⟨first, more, hl⟩ := h.exists_lines
  rw [hl] at hj ⊢
  by_cases hm : more = []
  · simp_all
  · rw [joinWith_cons _ _ hm] at hj
    rw [List.tail_cons, List.headD_cons, joinWith_cons _ _ hm, ← hj]
    simp

omit h in
include hname in
theorem not_mem_tagName {c : Char} (hc : isBlank c) : c ∉ '@' :: name.toList := by
  obtain ⟨_, _, _, _, hn⟩ := hname
  intro hm
  rcases List.mem_cons.mp hm with rfl | hm
  · exact absurd hc (by decide)
  · exact absurd ((hn _ hm).1.symm.trans hc) (by decide)

omit h in
include hname in
theorem isRow_tagName : IsRow ('@' :: name.toList) :=
  ⟨not_mem_tagName hname (by decide), fun hl => not_mem_tagName hname (by decide) (List.mem_of_getLast? hl)⟩

omit h in
include hname in
theorem safe_tagName : ∀ c ∈ '@' :: name.toList, c ≠ '*' := by
  obtain ⟨_, _, _, _, hn⟩ := hname
  intro c hc
  rcases List.mem_cons.mp hc with rfl | hc
  · decide
  · exact (hn c hc).2

include hname

theorem block_lineTag : Block (lineTag name s).lines where
  isRow l hl := by
    obtain ⟨first, more, hf⟩ := h.exists_lines
    rw [lineTag_lines h, hf] at hl
    rcases List.mem_cons.mp hl with rfl | hl
    · have hbefore : '\n' ∉ '@' :: name.toList ++ [' '] := by
        simpa using not_mem_tagName hname (show isBlank '\n' by decide)
      simpa using (h.isRow (by simp [hf])).append (h.head?_first hf).1 hbefore
    · exact h.block.isRow l (by simp_all)
  safe l hl := by
    obtain ⟨first, more, hf⟩ := h.exists_lines
    rw [lineTag_lines h, hf] at hl
    rcases List.mem_cons.mp hl with rfl | hl
    · exact safe_append (safe_tagName hname) (safe_cons (by decide) (h.block.safe first (by simp [hf])))
    · exact h.block.safe l (by simp_all)
  tight := by
    rw [joinWith_lineTag h]
    refine ⟨?_, ?_⟩
    · intro c hc
      obtain rfl : '@' = c := by simpa using hc
      decide
    · have hlast := List.getLast?_eq_some_getLast h.nonempty
      have := h.tight.2
      simpa [List.getLast?_append, List.getLast?_cons, hlast] using this
  nonempty := by
    rw [joinWith_lineTag h]
    simp

theorem proper_lineTag (ht : NoTrailing s) (htag : ∀ line ∈ (lines s.toList).tail, ¬StartsTag line) :
    (lineTag name s).Proper where
  name := by
    obtain ⟨c, rest, hn, hc, hd⟩ := hname
    exact ⟨c, rest, hn, hc, fun d hm => (hd d hm).1⟩
  first := by
    obtain ⟨first, more, hf⟩ := h.exists_lines
    have hhead := (h.head?_first hf).2
    rw [lineTag, hf]
    exact ⟨fun c hc => h.tight.1 c (hhead ▸ hc), ht first (by simp [hf])⟩
  more := htag

omit hname in
theorem joinWith_blockTag : joinWith ['\n'] (blockTag name s).lines =
    '@' :: name.toList ++ '\n' :: joinWith ['\n'] ((lines s.toList).map ("    ".toList ++ ·)) := by
  rw [Tag.lines, joinWith_cons _ _ (by simpa [blockTag] using h.block.ne_nil)]
  simp [blockTag, Tag.headline]

theorem block_blockTag : Block (blockTag name s).lines where
  isRow l hl := by
    rcases List.mem_cons.mp hl with rfl | hl
    · simpa [Tag.headline, blockTag] using isRow_tagName hname
    · obtain ⟨m, hm, rfl⟩ := List.mem_map.mp hl
      by_cases hne : m = []
      · subst hne
        exact ⟨by decide, by decide⟩
      · exact (h.isRow hm).append hne (by decide)
  safe l hl := by
    rcases List.mem_cons.mp hl with rfl | hl
    · simpa [Tag.headline, blockTag] using safe_append (safe_tagName hname) (show unescape (escape []) = [] from rfl)
    · obtain ⟨m, hm, rfl⟩ := List.mem_map.mp hl
      exact safe_append (by simp) (h.block.safe m hm)
  tight := by
    refine ⟨?_, ?_⟩
    · intro c hc
      rw [joinWith_blockTag h] at hc
      obtain rfl : '@' = c := by simpa using hc
      decide
    · intro c hc
      -- the text ends with its last line, however that is indented
      obtain ⟨l, hl⟩ := List.getLast?_isSome.mpr h.block.ne_nil |> Option.isSome_iff_exists.mp
      have hne : l ≠ [] := fun he => h.block.getLast? (he ▸ hl)
      have hlast : (blockTag name s).lines.getLast? = some ("    ".toList ++ l) := by
        simp [Tag.lines, blockTag, List.getLast?_cons, hl]
      rw [getLast?_joinWith hlast (by simp), List.getLast?_append, List.getLast?_eq_some_getLast hne] at hc
      refine h.tight.2 c ?_
      rw [← h.joinWith_lines, getLast?_joinWith hl hne, List.getLast?_eq_some_getLast hne]
      exact hc
  nonempty := by
    rw [joinWith_blockTag h]
    simp

omit h in
theorem proper_blockTag (htag : ∀ line ∈ lines s.toList, ¬StartsTag line) : (blockTag name s).Proper where
  name := by
    obtain ⟨c, rest, hn, hc, hd⟩ := hname
    exact ⟨c, rest, hn, hc, fun d hm => (hd d hm).1⟩
  first := ⟨by simp [blockTag], by simp [blockTag]⟩
  more l hl := by
    obtain ⟨m, hm, rfl⟩ := List.mem_map.mp hl
    rintro ⟨c, rest, htrim, hc⟩
    rw [trimStart_blank (blank_of_all (by decide))] at htrim
    exact htag m hm ⟨c, rest, htrim, hc⟩

end Tags

theorem commonIndentation_eq {ls : List (List Char)} {n : Nat} (hle : ∀ l ∈ ls, trim l ≠ [] → n ≤ indentation l)
    (h : ∃ l ∈ ls, trim l ≠ [] ∧ indentation l = n) : commonIndentation ls = n := by
  have hmin : ((ls.filter fun l => !(trim l).isEmpty).map indentation).min? = some n := by
    rw [List.min?_eq_some_iff]
    simp only [List.mem_map, List.mem_filter, Bool.not_eq_true', List.isEmpty_eq_false_iff]
    constructor
    · obtain ⟨l, hl, ht, hn⟩ := h
      exact ⟨l, ⟨hl, ht⟩, hn⟩
    · rintro _ ⟨l, ⟨hl, ht⟩, rfl⟩
      exact hle l hl ht
  rw [commonIndentation, hmin, Option.getD_some]

theorem indentation_start {line : List Char} (h : ∃ c ∈ line.head?, isBlank c = false) :
    indentation line = 0 ∧ trim line ≠ [] := by
  obtain ⟨c, hc, hb⟩ := h
  cases line with
  | nil => cases hc
  | cons d line =>
    obtain rfl : d = c := by simpa using hc
    refine ⟨by simp [indentation, hb, byteSize], fun ht => ?_⟩
    -- a text without its end blanks is empty only if it is all blank
    have hstart : trimStart (d :: line) = d :: line := trimStart_tight (by simpa using hb)
    rw [trim, hstart, trimEnd, List.reverse_eq_nil_iff, List.dropWhile_eq_nil_iff] at ht
    simp [ht d (by simp)] at hb

theorem indentation_spaces (line : List Char) : indentation ("    ".toList ++ line) = 4 + indentation line := by
  have hb : isBlank ' ' = true := by decide
  have hs : ' '.utf8Size = 1 := by decide
  simp [indentation, List.takeWhile, hb, byteSize, hs]
  omega

variable {name s : String}

/-- The text of a tag whose later lines are not all indented, and not blank at their ends. -/
theorem tagText_flat {first : List Char} {more : List (List Char)} (hindent : commonIndentation more = 0)
    (hmore : ∀ line ∈ more, ∀ c ∈ line.getLast?, isBlank c = false) :
    tagText first more = trim (joinWith ['\n'] (first :: more)) := by
  have hmap : more.map (fun line => trimEnd ((dropBytes? 0 line).getD [])) = more := by
    refine (List.map_congr_left fun l hm => ?_).trans (List.map_id more)
    rw [dropBytes?, Option.getD_some]
    exact trimEnd_tight (hmore l hm)
  simp only [tagText, hindent, hmap]

theorem commonIndentation_flush {more : List (List Char)}
    (h : more ≠ [] → ∃ line ∈ more, ∃ c ∈ line.head?, isBlank c = false) : commonIndentation more = 0 := by
  by_cases hm : more = []
  · rw [hm]; rfl
  · obtain ⟨l, hmem, hc⟩ := h hm
    have := indentation_start hc
    exact commonIndentation_eq (fun _ _ _ => Nat.zero_le _) ⟨l, hmem, this.2, this.1⟩

/-- A text as it is read from behind the name of a tag. -/
def lineText (s : String) : List Char := tagText ((lines s.toList).headD []) (lines s.toList).tail

theorem lineText_eq (h : Held s) (ht : NoTrailing s) (hf : Flush s) : lineText s = s.toList := by
  obtain ⟨first, more, hl⟩ := h.exists_lines
  have hj := h.joinWith_lines
  rw [lineText, hl, List.headD_cons, List.tail_cons, tagText_flat, ← hl, hj, trim_tight h.tight]
  · exact commonIndentation_flush (by simpa [Flush, hl] using hf)
  · exact fun l hm => ht l (by simp [hl, hm])

/-- A tag has a text if there is one on its first line. -/
theorem tagText_ne_nil {first : List Char} (hne : first ≠ []) (hstart : ∀ c ∈ first.head?, isBlank c = false)
    (more : List (List Char)) : tagText first more ≠ [] := by
  obtain ⟨c, rest, rfl⟩ := List.exists_cons_of_ne_nil hne
  refine (indentation_start ⟨c, ?_, hstart c rfl⟩).2
  cases more <;> rfl

theorem lineText_ne_nil (h : Held s) : lineText s ≠ [] := by
  obtain ⟨first, more, hl⟩ := h.exists_lines
  obtain ⟨hne, hhead⟩ := h.head?_first hl
  rw [lineText, hl]
  exact tagText_ne_nil hne (fun c hc => h.tight.1 c (hhead ▸ hc)) more

/-- The text of a tag whose lines are all indented by four spaces more than its own. -/
theorem tagText_blockTag (h : Held s) (ht : NoTrailing s) :
    tagText (blockTag name s).first (blockTag name s).more = s.toList := by
  obtain ⟨first, more, hl⟩ := h.exists_lines
  have hindent : commonIndentation ((lines s.toList).map ("    ".toList ++ ·)) = 4 := by
    apply commonIndentation_eq
    · intro l hm _
      obtain ⟨m, -, rfl⟩ := List.mem_map.mp hm
      simp only [indentation_spaces, Nat.le_add_right]
    · obtain ⟨hne, hhead⟩ := h.head?_first hl
      have hstart : ∃ c ∈ first.head?, isBlank c = false := by
        obtain ⟨c, hc⟩ := Option.isSome_iff_exists.mp (List.isSome_head?.mpr hne)
        exact ⟨c, hc, h.tight.1 c (hhead ▸ hc)⟩
      refine ⟨"    ".toList ++ first, List.mem_map_of_mem (by simp [hl]), ?_, ?_⟩
      · rw [trim, trimStart_blank (blank_of_all (by decide))]
        exact (indentation_start hstart).2
      · rw [indentation_spaces, (indentation_start hstart).1]
  have hmap : ((lines s.toList).map ("    ".toList ++ ·)).map (fun line => trimEnd ((dropBytes? 4 line).getD [])) =
      lines s.toList := by
    rw [List.map_map]
    refine (List.map_congr_left fun l hm => ?_).trans (List.map_id (lines s.toList))
    have hdrop : dropBytes? 4 ("    ".toList ++ l) = some l := by cases l <;> rfl
    rw [Function.comp_apply, hdrop, Option.getD_some]
    exact trimEnd_tight (ht l hm)
  simp only [tagText, blockTag, hindent, hmap]
  rw [joinWith_cons _ _ h.block.ne_nil, h.joinWith_lines, List.nil_append]
  simpa using trim_pad (a := ['\n']) (b := []) (blank_of_all (by decide)) (by simp) h.tight

end DocComment

end TypeSchema
