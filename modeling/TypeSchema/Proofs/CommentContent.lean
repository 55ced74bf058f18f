import TypeSchema.Proofs.CommentLines

namespace TypeSchema

theorem trimStart_append {s : List Char} (h : ∀ c ∈ s.head?, isBlank c = false) (before : List Char) :
    trimStart (before ++ s) = trimStart before ++ s := by
  have hkept : s.dropWhile isBlank = s := trimStart_tight h
  rw [trimStart, trimStart, List.dropWhile_append, hkept]
  split
  · next h => rw [List.isEmpty_iff.mp h, List.nil_append]
  · rfl

theorem trimEnd_append {s : List Char} (h : ∀ c ∈ s.getLast?, isBlank c = false) (after : List Char) :
    trimEnd (s ++ after) = s ++ trimEnd after := by
  have hkept : s.reverse.dropWhile isBlank = s.reverse :=
    trimStart_tight (by simpa only [List.head?_reverse] using h)
  rw [trimEnd, trimEnd, List.reverse_append, List.dropWhile_append, hkept]
  split
  · next h => rw [List.isEmpty_iff.mp h, List.reverse_reverse, List.reverse_nil, List.append_nil]
  · rw [List.reverse_append, List.reverse_reverse]

/-- Nothing but blanks is lost at either end. -/
theorem exists_trim (s : List Char) : ∃ before after, s = before ++ trim s ++ after ∧
    (∀ c ∈ before, isBlank c) ∧ ∀ c ∈ after, isBlank c := by
  refine ⟨s.takeWhile isBlank, ((trimStart s).reverse.takeWhile isBlank).reverse, ?_, ?_, ?_⟩
  · have hend : trim s ++ ((trimStart s).reverse.takeWhile isBlank).reverse = trimStart s := by
      rw [trim, trimEnd, ← List.reverse_append, List.takeWhile_append_dropWhile, List.reverse_reverse]
    rw [List.append_assoc, hend, trimStart, List.takeWhile_append_dropWhile]
  · exact fun c hc => List.mem_takeWhile_imp hc
  · exact fun c hc => List.mem_takeWhile_imp (List.mem_reverse.mp hc)

theorem tight_trim (s : List Char) : Tight (trim s) := by
  constructor
  · intro c hc
    have hstart : (trimStart s).head? = some c := by
      obtain ⟨after, hafter⟩ := trimEnd_isPrefix (trimStart s)
      rw [← hafter, List.head?_append, ← trim, hc, Option.some_or]
    have hhead := List.head?_dropWhile_not isBlank s
    rw [trimStart] at hstart
    rw [hstart] at hhead
    simpa using hhead
  · intro c hc
    rw [trim, trimEnd, List.getLast?_reverse] at hc
    have hhead := List.head?_dropWhile_not isBlank (trimStart s).reverse
    rw [hc] at hhead
    simpa using hhead

namespace DocComment

/-- A text may start or end here without a part of an end mark before or behind it. -/
def Parted (c : Char) : Prop := c ≠ '*' ∧ c ≠ '/'

theorem parted_of_isBlank {c : Char} (h : isBlank c) : Parted c := by
  constructor <;> rintro rfl <;> revert h <;> decide

/-- A text is escaped on its own where it is parted from what stands around it. -/
theorem escape_between {before after : List Char} (hb : ∀ c ∈ before.getLast?, Parted c)
    (ha : ∀ c ∈ after.head?, Parted c) (s : List Char) :
    escape (before ++ s ++ after) = escape before ++ escape s ++ escape after := by
  have hafter : escape (s ++ after) = escape s ++ escape after := by
    cases after with
    | nil => simp [escape]
    | cons c rest =>
      obtain ⟨hstar, hslash⟩ := ha c rfl
      rw [escape_append hstar hslash, escape_cons hstar]
  rcases List.eq_nil_or_concat before with rfl | ⟨start, c, rfl⟩
  · rw [List.nil_append, hafter]
    rfl
  · obtain ⟨hstar, hslash⟩ := hb c (by simp)
    have hbefore : escape (start ++ [c]) = escape start ++ [c] := by
      rw [escape_append hstar hslash]
      rfl
    rw [List.concat_eq_append, hbefore, List.append_assoc, List.append_assoc, List.singleton_append,
      escape_append hstar hslash, hafter]
    simp

/-- What is left of a text without blanks at its ends is left of it between blanks, too. -/
theorem infix_escape_trim {before after s : List Char} (hb : ∀ c ∈ before.getLast?, isBlank c)
    (ha : ∀ c ∈ after.head?, isBlank c) : escape (trim s) <:+: escape (trim (before ++ s ++ after)) := by
  obtain ⟨first, last, hs, hfirst, hlast⟩ := exists_trim s
  have htight := tight_trim s
  generalize trim s = kept at hs htight
  subst hs
  cases kept with
  | nil => exact List.nil_infix
  | cons c kept =>
    have hbefore : ∀ c ∈ (before ++ first).getLast?, isBlank c := by
      intro c hc
      rw [List.getLast?_append] at hc
      rcases Option.or_eq_some_iff.mp hc with hc | ⟨-, hc⟩
      · exact hfirst c (List.mem_of_getLast? hc)
      · exact hb c hc
    have hafter : ∀ c ∈ (last ++ after).head?, isBlank c := by
      intro c hc
      rw [List.head?_append] at hc
      rcases Option.or_eq_some_iff.mp hc with hc | ⟨-, hc⟩
      · exact hlast c (List.mem_of_head? hc)
      · exact ha c hc
    have htrim : trim (before ++ (first ++ c :: kept ++ last) ++ after) =
        trimStart (before ++ first) ++ c :: kept ++ trimEnd (last ++ after) := by
      have hassoc : before ++ (first ++ c :: kept ++ last) ++ after =
          (before ++ first) ++ (c :: kept ++ (last ++ after)) := by simp only [List.append_assoc]
      rw [trim, hassoc, trimStart_append (by simpa using htight.1), ← List.append_assoc, trimEnd_append]
      rw [List.getLast?_append, List.getLast?_cons, Option.some_or, ← List.getLast?_cons]
      exact htight.2
    rw [htrim, escape_between]
    · exact ⟨_, _, rfl⟩
    · intro c hc
      obtain ⟨start, hstart⟩ := List.dropWhile_suffix (l := before ++ first) isBlank
      refine parted_of_isBlank (hbefore c ?_)
      rw [← hstart, List.getLast?_append, ← trimStart, hc, Option.some_or]
      exact Option.mem_some_self c
    · intro c hc
      obtain ⟨rest, hrest⟩ := trimEnd_isPrefix (last ++ after)
      refine parted_of_isBlank (hafter c ?_)
      rw [← hrest, List.head?_append, hc, Option.some_or]
      exact Option.mem_some_self c

/-- An example as it is shown, each of its lines further in. -/
def indented (text : List Char) : List Char := joinWith ['\n'] ((lines text).map ("    ".toList ++ ·))

/-- The texts that annotations say besides their title, as they are shown. -/
def shownTexts (a : Annotations) : List (List Char) :=
  (a.description.map String.toList).toList ++
  (Annotations.listed a.examples).map (fun example_ => indented example_.toList) ++
  (a.defaultValue.map fun value => (Annotations.defaultText value).toList).toList ++
  (Annotations.listed a.see).map String.toList

/-- A text is part of a comment: but for blanks at its ends, and with its end marks escaped, it stands in what the comment
is written around. -/
def Says (doc : String) (text : List Char) : Prop :=
  ∃ body, doc = String.ofList (comment body) ∧ escape (trim text) <:+: body

/-- Each text stands in a section, perhaps behind its tag. -/
theorem mem_sections {a : Annotations} (inferred : Option String) {text : List Char} (h : text ∈ shownTexts a) :
    ∃ tag, (∀ c ∈ tag.getLast?, isBlank c) ∧ tag ++ text ∈ sections a inferred := by
  have hblank : ∀ {tag : List Char} {last : Char}, tag.getLast? = some last → isBlank last →
      ∀ c ∈ tag.getLast?, isBlank c := by
    intro tag last hlast hblank c hc
    rw [hlast] at hc
    exact Option.some.inj hc ▸ hblank
  unfold shownTexts at h
  unfold sections
  simp only [List.mem_append] at h ⊢
  rcases h with ((h | h) | h) | h
  · exact ⟨[], by simp, .inl (.inl (.inl (.inl h)))⟩
  · obtain ⟨example_, hmem, rfl⟩ := List.mem_map.mp h
    exact ⟨"@example\n".toList, hblank rfl rfl, .inl (.inl (.inr (List.mem_map.mpr ⟨example_, hmem, rfl⟩)))⟩
  · obtain ⟨value, hvalue, rfl⟩ := Option.map_eq_some_iff.mp (Option.mem_toList.mp h)
    refine ⟨"@default ".toList, hblank rfl rfl, .inl (.inr ?_)⟩
    rw [hvalue]
    exact List.mem_singleton_self _
  · obtain ⟨link, hmem, rfl⟩ := List.mem_map.mp h
    exact ⟨"@see ".toList, hblank rfl rfl, .inr (List.mem_map.mpr ⟨link, hmem, rfl⟩)⟩

/-- A part of a joined text is parted from the others by the separator. -/
theorem joinWith_around (separator : List Char) {s : List Char} {parts : List (List Char)} (h : s ∈ parts) :
    ∃ before after, joinWith separator parts = before ++ s ++ after ∧ (before = [] ∨ separator <:+ before) ∧
      (after = [] ∨ separator <+: after) := by
  induction parts with
  | nil => cases h
  | cons first rest ih =>
    by_cases hrest : rest = []
    · subst hrest
      obtain rfl := List.mem_singleton.mp h
      exact ⟨[], [], by simp, .inl rfl, .inl rfl⟩
    · rw [joinWith_cons _ _ hrest]
      rcases List.mem_cons.mp h with rfl | h
      · exact ⟨[], separator ++ joinWith separator rest, by simp, .inl rfl, .inr (List.prefix_append _ _)⟩
      · obtain ⟨before, after, hjoin, hbefore, hafter⟩ := ih h
        refine ⟨first ++ separator ++ before, after, by simp [hjoin], .inr ?_, hafter⟩
        rcases hbefore with rfl | hbefore
        · exact ⟨first, by simp⟩
        · exact hbefore.trans (List.suffix_append _ _)

/-- What is written between the comment marks: all sections, with the end marks in them escaped. -/
def body (a : Annotations) (inferred : Option String) : List Char :=
  escape (trim (joinWith "\n\n".toList (sections a inferred)))

theorem render_body (a : Annotations) (inferred : Option String) : render a inferred =
    if body a inferred = [] then none else some (String.ofList (comment (body a inferred))) := by
  have htext : replaceAll "*/".toList "*\\/".toList (trim (joinWith "\n\n".toList (sections a inferred))) =
      body a inferred := by rw [replaceAll_escape, body]
  simp only [render, htext, List.isEmpty_iff, comment]
  split
  · rfl
  · split <;> rfl

/-- What annotations say stands there. -/
theorem infix_body {a : Annotations} (inferred : Option String) {text : List Char} (h : text ∈ shownTexts a) :
    escape (trim text) <:+: body a inferred := by
  obtain ⟨tag, htag, hmem⟩ := mem_sections inferred h
  obtain ⟨before, after, hjoin, hbefore, hafter⟩ := joinWith_around "\n\n".toList hmem
  have hstart : ∀ c ∈ (before ++ tag).getLast?, isBlank c := by
    intro c hc
    rw [List.getLast?_append] at hc
    rcases Option.or_eq_some_iff.mp hc with hc | ⟨-, hc⟩
    · exact htag c hc
    · rcases hbefore with rfl | ⟨front, rfl⟩
      · cases hc
      · rw [List.getLast?_append] at hc
        obtain rfl : '\n' = c := Option.some.inj hc
        decide
  have hend : ∀ c ∈ after.head?, isBlank c := by
    intro c hc
    rcases hafter with rfl | ⟨back, rfl⟩
    · cases hc
    · obtain rfl : '\n' = c := Option.some.inj hc
      decide
  have hinfix := infix_escape_trim hstart hend (s := text)
  have hassoc : before ++ (tag ++ text) ++ after = before ++ tag ++ text ++ after := by simp only [List.append_assoc]
  rwa [← hassoc, ← hjoin] at hinfix

/-- What annotations say is part of their comment. -/
theorem exists_says {a : Annotations} (inferred : Option String) {text : List Char} (h : text ∈ shownTexts a)
    (hne : trim text ≠ []) : ∃ doc, render a inferred = some doc ∧ Says doc text := by
  have hinfix := infix_body inferred h
  have hbody : body a inferred ≠ [] := by
    intro hnil
    rw [hnil, List.infix_nil] at hinfix
    exact hne (escape_eq_nil.mp hinfix)
  exact ⟨_, by rw [render_body, if_neg hbody], _, rfl, hinfix⟩

end DocComment

end TypeSchema
