import TypeSchema.Proofs.CommentLines

namespace TypeSchema

/-- Blocks of lines with an empty line between them. -/
def paragraphs : List (List (List Char)) → List (List Char)
  | [] => []
  | [p] => p
  | p :: rest => p ++ [] :: paragraphs rest

theorem paragraphs_cons (p : List (List Char)) {rest : List (List (List Char))} (h : rest ≠ []) :
    paragraphs (p :: rest) = p ++ [] :: paragraphs rest := by
  cases rest with
  | nil => exact absurd rfl h
  | cons q rest => rfl

/-- With an empty line at the end, every paragraph ends in one. -/
theorem paragraphs_append {ps : List (List (List Char))} (h : ps ≠ []) :
    paragraphs ps ++ [[]] = ps.flatMap (· ++ [[]]) := by
  induction ps with
  | nil => exact absurd rfl h
  | cons p ps ih =>
    by_cases hps : ps = []
    · simp [hps, paragraphs]
    · rw [paragraphs_cons p hps, List.flatMap_cons, ← ih hps]
      simp

theorem joinWith_paragraphs {ps : List (List (List Char))} (h : ∀ p ∈ ps, p ≠ []) :
    joinWith ['\n'] (paragraphs ps) = joinWith "\n\n".toList (ps.map (joinWith ['\n'])) := by
  induction ps with
  | nil => rfl
  | cons p ps ih =>
    by_cases hps : ps = []
    · simp [hps, paragraphs]
    · obtain ⟨q, qs, rfl⟩ := List.exists_cons_of_ne_nil hps
      have hq : paragraphs (q :: qs) ≠ [] := by
        cases qs with
        | nil => exact h q (by simp)
        | cons => simp [paragraphs]
      have hjoin : joinWith "\n\n".toList ((p :: q :: qs).map (joinWith ['\n'])) = joinWith ['\n'] p ++
          "\n\n".toList ++ joinWith "\n\n".toList ((q :: qs).map (joinWith ['\n'])) :=
        joinWith_cons _ _ (by simp)
      rw [paragraphs_cons p hps, joinWith_append _ (h p (by simp)) (by simp), joinWith_cons _ _ hq,
        ih fun p hp => h p (List.mem_cons_of_mem _ hp), hjoin]
      simp

namespace DocComment

theorem Block.append {ls ms : List (List Char)} (hl : Block ls) (hm : Block ms) : Block (ls ++ [] :: ms) where
  isRow l h := by
    rcases List.mem_append.mp h with h | h
    · exact hl.isRow l h
    · rcases List.mem_cons.mp h with rfl | h
      · exact ⟨by simp, by simp⟩
      · exact hm.isRow l h
  safe l h := by
    rcases List.mem_append.mp h with h | h
    · exact hl.safe l h
    · rcases List.mem_cons.mp h with rfl | h
      · rfl
      · exact hm.safe l h
  tight := by
    have hms := hm.ne_nil
    rw [joinWith_append _ hl.ne_nil (by simp), joinWith_cons _ _ hms]
    constructor
    · have := hl.tight.1
      simpa [List.head?_append, List.head?_eq_some_head hl.nonempty] using this
    · have hlast := List.getLast?_eq_some_getLast hm.nonempty
      have := hm.tight.2
      simpa [List.getLast?_append, List.getLast?_cons, hlast] using this
  nonempty := by
    rw [joinWith_append _ hl.ne_nil (by simp)]
    simp

theorem block_paragraphs {ps : List (List (List Char))} (hne : ps ≠ []) (h : ∀ p ∈ ps, Block p) :
    Block (paragraphs ps) := by
  induction ps with
  | nil => exact absurd rfl hne
  | cons p ps ih =>
    by_cases hps : ps = []
    · simpa [hps, paragraphs] using h p List.mem_cons_self
    · rw [paragraphs_cons p hps]
      exact (h p List.mem_cons_self).append (ih hps fun q hq => h q (List.mem_cons_of_mem _ hq))

/-- A line that is read as the first line of a tag. -/
def StartsTag (line : List Char) : Prop := ∃ c rest, trimStart line = '@' :: c :: rest ∧ c.isAlpha

theorem tagOf?_eq_none {line : List Char} : tagOf? line = none ↔ ¬StartsTag line := by
  constructor
  · rintro h ⟨c, rest, heq, hc⟩
    simp [tagOf?, heq, hc] at h
  · intro h
    unfold tagOf?
    split
    · next c rest heq =>
      rw [if_neg]
      exact fun hc => h ⟨c, rest, heq, hc⟩
    · rfl

instance (line : List Char) : Decidable (StartsTag line) :=
  decidable_of_iff (¬(tagOf? line).isNone) (by simp [tagOf?_eq_none])

theorem splitTags_append {ls : List (List Char)} (h : ∀ l ∈ ls, ¬StartsTag l) (rest : List (List Char)) :
    splitTags (ls ++ rest) = (ls ++ (splitTags rest).1, (splitTags rest).2) := by
  induction ls with
  | nil => rfl
  | cons l ls ih =>
    rw [List.cons_append, splitTags, ih fun m hm => h m (List.mem_cons_of_mem _ hm),
      tagOf?_eq_none.mpr (h l List.mem_cons_self)]
    rfl

theorem not_startsTag_nil : ¬StartsTag [] := by
  rintro ⟨c, rest, h, -⟩
  cases h

/-- The line that a tag starts with. -/
def Tag.headline (t : Tag) : List Char :=
  '@' :: t.name ++ if t.first.isEmpty then [] else ' ' :: t.first

/-- The lines that a tag is written on. -/
def Tag.lines (t : Tag) : List (List Char) := t.headline :: t.more

/-- A tag with a name that is read as one, and with nothing in it that is read as another tag. -/
structure Tag.Proper (t : Tag) : Prop where
  name : ∃ c rest, t.name = c :: rest ∧ c.isAlpha ∧ ∀ d ∈ t.name, isBlank d = false
  first : Tight t.first
  more : ∀ l ∈ t.more, ¬StartsTag l

/-- A tag with an empty line behind it. -/
def Tag.closed (t : Tag) : Tag := { t with more := t.more ++ [[]] }

theorem takeWhile_name {name : List Char} (h : ∀ d ∈ name, isBlank d = false) {rest : List Char}
    (hr : ∀ d ∈ rest.head?, isBlank d) :
    (name ++ rest).takeWhile (!isBlank ·) = name ∧ (name ++ rest).dropWhile (!isBlank ·) = rest := by
  have hn : ∀ d ∈ name, (!isBlank d) = true := by simpa using h
  rw [List.takeWhile_append_of_pos hn, List.dropWhile_append_of_pos hn]
  cases rest with
  | nil => simp
  | cons d rest => simp [hr d rfl]

/-- The first line of a tag is read as such, with or without a space behind it. -/
theorem Tag.Proper.tagOf? {t : Tag} (h : t.Proper) {blank : List Char} (hb : ∀ c ∈ blank, isBlank c) :
    DocComment.tagOf? (t.headline ++ blank) = some (t.name, t.first) := by
  obtain ⟨c, rest, hn, hc, hd⟩ := h.name
  rw [hn] at hd
  have hrest : ∀ d ∈ ((if t.first.isEmpty then [] else ' ' :: t.first) ++ blank).head?, isBlank d := by
    split
    · intro d hm
      exact hb d (List.mem_of_mem_head? hm)
    · intro d hm
      obtain rfl : ' ' = d := by simpa using hm
      decide
  obtain ⟨htake, hdrop⟩ := takeWhile_name hd hrest
  have htrim : trim ((if t.first.isEmpty then [] else ' ' :: t.first) ++ blank) = t.first := by
    split
    · next he =>
      rw [List.isEmpty_iff.mp he, List.nil_append]
      simpa using trim_pad (s := []) (b := []) hb (by simp) ⟨by simp, by simp⟩
    · exact trim_pad (a := [' ']) (blank_of_all (by decide)) hb h.first
  have hstart : trimStart (t.headline ++ blank) =
      '@' :: c :: (rest ++ ((if t.first.isEmpty then [] else ' ' :: t.first) ++ blank)) := by
    rw [Tag.headline, hn, trimStart_tight]
    · simp
    · intro d hm
      obtain rfl : '@' = d := by simpa using hm
      decide
  rw [DocComment.tagOf?, hstart]
  simp only [hc, if_true]
  rw [List.cons_append] at htake hdrop
  rw [htake, hdrop, htrim, hn]

theorem splitTags_tags {tags : List Tag} (h : ∀ t ∈ tags, t.Proper) :
    splitTags (tags.flatMap fun t => t.lines ++ [[]]) = ([], tags.map Tag.closed) := by
  induction tags with
  | nil => rfl
  | cons t tags ih =>
    have ht := h t List.mem_cons_self
    have htag : tagOf? (t.headline ++ []) = _ := ht.tagOf? (by simp)
    rw [List.append_nil] at htag
    have hmore : ∀ l ∈ t.more ++ [[]], ¬StartsTag l := by
      intro l hl
      rcases List.mem_append.mp hl with hl | hl
      · exact ht.more l hl
      · rw [List.mem_singleton.mp hl]
        exact not_startsTag_nil
    rw [List.flatMap_cons, Tag.lines, List.cons_append, List.cons_append, splitTags,
      splitTags_append hmore, ih fun u hu => h u (List.mem_cons_of_mem _ hu), htag]
    simp [Tag.closed]

theorem commonIndentation_closed (more : List (List Char)) :
    commonIndentation (more ++ [[]]) = commonIndentation more := by
  simp [commonIndentation, trim, trimStart, trimEnd]

/-- An empty line behind a tag is no part of its text. -/
theorem tagText_closed (first : List Char) (more : List (List Char)) :
    tagText first (more ++ [[]]) = tagText first more := by
  have hlast : ∀ n, trimEnd ((dropBytes? n []).getD []) = [] := by
    intro n
    cases n <;> rfl
  simp only [tagText, commonIndentation_closed, List.map_append, List.map_singleton, hlast]
  rw [← List.cons_append, joinWith_append _ (by simp) (by simp), joinWith_singleton, List.append_nil,
    trim_append (blank_of_all (by decide))]

/-- A tag is read in the same way with an empty line behind it. -/
theorem add_closed (said : Said) (t : Tag) : said.add t.closed = said.add t := by
  simp only [Said.add, Tag.closed, tagText_closed]

theorem foldl_closed (said : Said) (tags : List Tag) :
    (tags.map Tag.closed).foldl Said.add said = tags.foldl Said.add said := by
  simp only [List.foldl_map, add_closed]

/-- What the lines of a comment say: the text before the first tag, and what the tags say. -/
def tells (ls : List (List Char)) : Option String × Said :=
  (text? (trim (joinWith ['\n'] (splitTags ls).1)), (splitTags ls).2.foldl Said.add {})

/-- Lines that start with a tag are read after what the lines before them say. -/
theorem tells_append (ls : List (List Char)) {rest : List (List Char)} (h : (splitTags rest).1 = []) :
    tells (ls ++ rest) = ((tells ls).1, (splitTags rest).2.foldl Said.add (tells ls).2) := by
  have hsplit : splitTags (ls ++ rest) = ((splitTags ls).1, (splitTags ls).2 ++ (splitTags rest).2) := by
    induction ls with
    | nil => exact Prod.ext h rfl
    | cons l ls ih =>
      rw [List.cons_append, splitTags, ih, splitTags]
      cases tagOf? l <;> rfl
  rw [tells, tells, hsplit]
  simp only [List.foldl_append]

theorem tells_append_tags (ls : List (List Char)) {tags : List Tag} (h : ∀ t ∈ tags, t.Proper) :
    tells (ls ++ tags.flatMap fun t => t.lines ++ [[]]) = ((tells ls).1, tags.foldl Said.add (tells ls).2) := by
  have hsplit := splitTags_tags h
  rw [tells_append ls (by rw [hsplit]), hsplit, foldl_closed]

theorem splitTags_append_nil (ls : List (List Char)) :
    ((splitTags (ls ++ [[]])).1 = (splitTags ls).1 ∨ (splitTags (ls ++ [[]])).1 = (splitTags ls).1 ++ [[]]) ∧
      ∀ said : Said, (splitTags (ls ++ [[]])).2.foldl Said.add said = (splitTags ls).2.foldl Said.add said := by
  induction ls with
  | nil => exact ⟨.inr rfl, fun _ => rfl⟩
  | cons l ls ih =>
    obtain ⟨hbefore, hsaid⟩ := ih
    rw [List.cons_append, splitTags, splitTags]
    cases tagOf? l with
    | none => exact ⟨hbefore.imp (congrArg (l :: ·)) (congrArg (l :: ·)), hsaid⟩
    | some tag =>
      refine ⟨.inl rfl, fun said => ?_⟩
      simp only [List.foldl_cons, hsaid]
      rcases hbefore with hbefore | hbefore
      · rw [hbefore]
      · have hclosed := add_closed said ⟨tag.1, tag.2, (splitTags ls).1⟩
        rw [Tag.closed] at hclosed
        rw [hbefore, hclosed]

/-- An empty line at the end says nothing. -/
theorem tells_append_nil (ls : List (List Char)) : tells (ls ++ [[]]) = tells ls := by
  obtain ⟨hbefore, hsaid⟩ := splitTags_append_nil ls
  rw [tells, tells, hsaid]
  rcases hbefore with hbefore | hbefore
  · rw [hbefore]
  · rw [hbefore]
    by_cases hnil : (splitTags ls).1 = []
    · rw [hnil]
      rfl
    · rw [joinWith_append _ hnil (by simp), joinWith_singleton, List.append_nil, trim_append (blank_of_all (by decide))]

/-- Nor does one at the start. -/
theorem tells_nil_cons (ls : List (List Char)) : tells ([] :: ls) = tells ls := by
  have hsplit : splitTags ([] :: ls) = ([] :: (splitTags ls).1, (splitTags ls).2) := by rw [splitTags]; rfl
  rw [tells, tells, hsplit]
  by_cases hnil : (splitTags ls).1 = []
  · rw [hnil]
    rfl
  · have htrim : trim (['\n'] ++ joinWith ['\n'] (splitTags ls).1) = trim (joinWith ['\n'] (splitTags ls).1) := by
      rw [trim, trim, trimStart_blank (blank_of_all (by decide))]
    rw [joinWith_cons _ _ hnil, List.nil_append, htrim]

theorem not_isAlpha_of_isBlank {c : Char} (h : isBlank c) : c.isAlpha = false := by
  have hcode : c.toNat ∈ blankCodes := by simpa [isBlank] using h
  have hc : Char.ofNat c.toNat = c := Char.ofNat_toNat c
  have hall : ∀ n ∈ blankCodes, (Char.ofNat n).isAlpha = false := by decide
  exact hc ▸ hall _ hcode

/-- The name and the rest of a tag's line, whatever blanks stand behind it. -/
theorem word_append {blank : List Char} (hb : ∀ c ∈ blank, isBlank c) (s : List Char) :
    (s ++ blank).takeWhile (!isBlank ·) = s.takeWhile (!isBlank ·) ∧
      trim ((s ++ blank).dropWhile (!isBlank ·)) = trim (s.dropWhile (!isBlank ·)) := by
  have hname : ∀ d ∈ s.takeWhile (!isBlank ·), isBlank d = false := fun d hd => by simpa using List.mem_takeWhile_imp hd
  have hrest : ∀ d ∈ (s.dropWhile (!isBlank ·) ++ blank).head?, isBlank d := by
    intro d hd
    have hhead := List.head?_dropWhile_not (!isBlank ·) s
    cases hdrop : s.dropWhile (!isBlank ·) with
    | nil =>
      rw [hdrop] at hd
      exact hb d (List.mem_of_mem_head? hd)
    | cons e rest =>
      rw [hdrop] at hhead hd
      obtain rfl : e = d := by simpa using hd
      simpa using hhead
  have hword := takeWhile_name hname hrest
  rw [← List.append_assoc, List.takeWhile_append_dropWhile] at hword
  rw [hword.1, hword.2, trim_append hb]
  exact ⟨rfl, rfl⟩

theorem tagOf?_append {blank : List Char} (hb : ∀ c ∈ blank, isBlank c) (line : List Char) :
    tagOf? (line ++ blank) = tagOf? line := by
  have hstart : trimStart (line ++ blank) = if trimStart line = [] then [] else trimStart line ++ blank := by
    have hnil : blank.dropWhile isBlank = [] := List.dropWhile_eq_nil_iff.mpr hb
    rw [trimStart, trimStart, List.dropWhile_append, hnil]
    simp only [List.isEmpty_iff]
  rw [tagOf?, tagOf?, hstart]
  rcases trimStart line with _ | ⟨d, rest⟩
  · rfl
  · by_cases hd : d = '@'
    · subst hd
      rcases rest with _ | ⟨c, rest⟩
      · cases blank with
        | nil => rfl
        | cons d blank => simp [not_isAlpha_of_isBlank (hb d List.mem_cons_self)]
      · obtain ⟨htake, hdrop⟩ := word_append hb (c :: rest)
        rw [List.cons_append] at htake hdrop
        simp [htake, hdrop]
    · simp [hd]

/-- Blanks at the end of the only line say nothing. -/
theorem tells_blank {blank : List Char} (hb : ∀ c ∈ blank, isBlank c) (line : List Char) :
    tells [line ++ blank] = tells [line] := by
  simp only [tells, splitTags, tagOf?_append hb]
  cases tagOf? line with
  | none => simp only [joinWith_singleton, trim_append hb]
  | some tag => rfl

end DocComment

end TypeSchema
