import TypeSchema.Proofs.CommentReading

namespace TypeSchema

theorem joinWith_flatten (separator : List Char) {parts : List (List (List Char))} (h : ∀ p ∈ parts, p ≠ []) :
    joinWith separator parts.flatten = joinWith separator (parts.map (joinWith separator)) := by
  induction parts with
  | nil => rfl
  | cons p parts ih =>
    have hrest := ih fun q hq => h q (List.mem_cons_of_mem _ hq)
    by_cases hparts : parts = []
    · simp [hparts]
    · have hflat : parts.flatten ≠ [] := by
        obtain ⟨q, qs, rfl⟩ := List.exists_cons_of_ne_nil hparts
        simp [h q (by simp)]
      rw [List.flatten_cons, joinWith_append _ (h p List.mem_cons_self) hflat, hrest, List.map_cons,
        joinWith_cons _ _ (by simpa using hparts)]

theorem Annotations.joined_pair {separator a b : String} (hab : a ≠ b) (ha : a.toList ≠ []) (hb : b.toList ≠ [])
    (ht : Tight (a.toList ++ separator.toList ++ b.toList)) :
    joined separator [a, b] = some (String.ofList (a.toList ++ separator.toList ++ b.toList)) := by
  have hd : distinctTexts [a, b] = [a, b] := by
    refine distinctTexts_of_nodup (by simpa using hab) fun s hs => ?_
    rcases List.mem_pair.mp hs with rfl | rfl
    exacts [ha, hb]
  have hjoin : (joinTexts separator [a, b]).toList = a.toList ++ separator.toList ++ b.toList := by
    simp [joinTexts, joinWith]
  have hne : (String.ofList (a.toList ++ separator.toList ++ b.toList)).isEmpty = false := by
    rw [String.isEmpty_eq_false_iff, ne_eq, String.ofList_eq_empty_iff]
    simp [ha]
  simp only [joined, hd, trimmed, hjoin, trim_tight ht, hne, Bool.false_eq_true, if_false]

theorem tight_between {s t : List Char} (hs : Tight s) (hne : s ≠ []) (ht : Tight t) (htne : t ≠ []) (between : List Char) :
    Tight (s ++ between ++ t) := by
  constructor
  · rw [List.append_assoc, List.head?_append, List.head?_eq_some_head hne, Option.some_or, ← List.head?_eq_some_head hne]
    exact hs.1
  · rw [List.getLast?_append, List.getLast?_eq_some_getLast htne, Option.some_or, ← List.getLast?_eq_some_getLast htne]
    exact ht.2

theorem tight_joinWith (separator : List Char) {parts : List (List Char)} (h : ∀ s ∈ parts, Tight s ∧ s ≠ []) :
    Tight (joinWith separator parts) ∧ (parts ≠ [] → joinWith separator parts ≠ []) := by
  induction parts with
  | nil => exact ⟨⟨by simp, by simp⟩, by simp⟩
  | cons s parts ih =>
    obtain ⟨hs, hne⟩ := h s List.mem_cons_self
    obtain ⟨htight, hrest⟩ := ih fun t ht => h t (List.mem_cons_of_mem _ ht)
    by_cases hparts : parts = []
    · simpa [hparts] using ⟨hs, hne⟩
    · rw [joinWith_cons _ _ hparts]
      exact ⟨tight_between hs hne htight (hrest hparts) separator, by simp [hne]⟩

/-- One of two texts, or the first before the second. -/
theorem Annotations.of_joined {separator : String} {a b : Option String}
    (ha : ∀ s ∈ a, s.toList ≠ [] ∧ Tight s.toList) (hb : ∀ s ∈ b, s.toList ≠ [] ∧ Tight s.toList) {s : String}
    (h : joined separator (a.toList ++ b.toList) = some s) :
    a = some s ∨ b = some s ∨
      ∃ s₁ ∈ a, ∃ s₂ ∈ b, s = String.ofList (s₁.toList ++ separator.toList ++ s₂.toList) := by
  cases a with
  | none =>
    cases b with
    | none =>
      have hnone : joined separator [] = none := by simp [joined, distinctTexts, joinTexts, trimmed, trim, trimStart, trimEnd]
      exact absurd (hnone.symm.trans h) (by simp)
    | some s₂ =>
      obtain ⟨hne, htight⟩ := hb s₂ rfl
      exact .inr (.inl ((joined_tight separator hne htight).symm.trans h))
  | some s₁ =>
    obtain ⟨hne, htight⟩ := ha s₁ rfl
    cases b with
    | none => exact .inl ((joined_tight separator hne htight).symm.trans h)
    | some s₂ =>
      obtain ⟨hne₂, htight₂⟩ := hb s₂ rfl
      by_cases heq : s₁ = s₂
      · subst heq
        have hone : joined separator [s₁, s₁] = joined separator [s₁] := by
          have hs : s₁ ≠ "" := by simpa using hne
          simp [joined, distinctTexts, hs, List.eraseDups_cons]
        exact .inl ((joined_tight separator hne htight).symm.trans (hone.symm.trans h))
      · have hpair := joined_pair heq hne hne₂ (tight_between htight hne htight₂ hne₂ separator.toList)
        exact .inr (.inr ⟨s₁, rfl, s₂, rfl, Option.some.inj (h.symm.trans hpair)⟩)

namespace DocComment

/-- The last line holds something, up to its end. -/
def Closed (ls : List (List Char)) : Prop := ∀ l ∈ ls.getLast?, l ≠ [] ∧ Ended l

theorem Closed.ended {ls : List (List Char)} (h : Closed ls) : ∀ c ∈ (joinWith ['\n'] ls).getLast?, isBlank c = false := by
  cases hlast : ls.getLast? with
  | none => simp [List.getLast?_eq_none_iff.mp hlast]
  | some l =>
    obtain ⟨hne, hended⟩ := h l hlast
    rw [getLast?_joinWith hlast hne]
    exact hended

theorem Closed.joinWith_ne_nil {ls : List (List Char)} (h : Closed ls) (hne : ls ≠ []) : joinWith ['\n'] ls ≠ [] := by
  obtain ⟨l, hl⟩ := Option.isSome_iff_exists.mp (List.getLast?_isSome.mpr hne)
  intro hnil
  have hlast := getLast?_joinWith hl (h l hl).1 ['\n']
  rw [hnil] at hlast
  exact (h l hl).1 (List.getLast?_eq_none_iff.mp hlast.symm)

theorem Closed.lines_joinWith {ls : List (List Char)} (h : Closed ls) (hrow : ∀ l ∈ ls, IsRow l) :
    lines (joinWith ['\n'] ls) = ls :=
  TypeSchema.lines_joinWith hrow fun hnil => (h [] hnil).1 rfl

theorem closed_of_tight {ls : List (List Char)} (ht : Tight (joinWith ['\n'] ls)) (hne : joinWith ['\n'] ls ≠ []) :
    Closed ls := by
  intro l hl
  obtain ⟨ms, rfl⟩ := List.getLast?_eq_some_iff.mp hl
  have hend := ht.2
  by_cases hms : ms = []
  · rw [hms, List.nil_append, joinWith_singleton] at hne hend
    exact ⟨hne, hend⟩
  · rw [joinWith_append _ hms (by simp), joinWith_singleton] at hend
    by_cases hnil : l = []
    · rw [hnil, List.append_nil, List.getLast?_concat] at hend
      exact absurd (hend '\n' rfl) (by decide)
    · refine ⟨hnil, fun c hc => hend c ?_⟩
      rw [List.getLast?_append, hc]
      rfl

/-- The first lines of tags stand behind lines that hold something, up to their ends. -/
def Apart (ls : List (List Char)) : Prop := ls.IsChain fun l m => StartsTag m → l ≠ [] ∧ Ended l

theorem splitTags_cons_none {l : List Char} (h : ¬StartsTag l) (ls : List (List Char)) :
    splitTags (l :: ls) = (l :: (splitTags ls).1, (splitTags ls).2) := by
  rw [splitTags, tagOf?_eq_none.mpr h]

theorem closed_splitTags_cons {l : List Char} {ls : List (List Char)} (h : Apart (l :: ls)) (hlast : Closed (l :: ls))
    (ih : Closed (splitTags ls).1) : Closed (l :: (splitTags ls).1) := by
  cases ls with
  | nil => exact hlast
  | cons m ls =>
    by_cases hm : StartsTag m
    · have hbefore : (splitTags (m :: ls)).1 = [] := by
        obtain ⟨tag, htag⟩ := Option.ne_none_iff_exists'.mp (mt tagOf?_eq_none.mp (not_not_intro hm))
        rw [splitTags, htag]
      rw [hbefore]
      intro k hk
      obtain rfl : l = k := by simpa using hk
      exact (List.isChain_cons_cons.mp h).1 hm
    · rw [splitTags_cons_none hm] at ih ⊢
      intro k hk
      rw [List.getLast?_cons_cons] at hk
      exact ih k hk

theorem Foreign.more {t : Tag} (h : Foreign t) (more : List (List Char)) : Foreign { t with more } where
  name := h.name
  unmarkedName := h.unmarkedName
  noBreak := h.noBreak
  unmarked := h.unmarked
  tight := h.tight
  worded := h.worded
  unknown := h.unknown

theorem Foreign.tagOf? {t : Tag} (h : Foreign t) : DocComment.tagOf? t.headline = some (t.name, t.first) := by
  have hproper : ({ t with more := [] } : Tag).Proper := ⟨h.name, h.tight, by simp⟩
  have htag : DocComment.tagOf? (t.headline ++ []) = some (t.name, t.first) := hproper.tagOf? (by simp)
  rwa [List.append_nil] at htag

/-- The lines of a description. The tags among them have no meaning of their own. -/
structure Narrated (ls : List (List Char)) : Prop where
  headed : ∀ l ∈ ls, StartsTag l → ∃ t, Foreign t ∧ l = t.headline
  apart : Apart ls
  closed : Closed ls

theorem Narrated.tail {l : List Char} {ls : List (List Char)} (h : Narrated (l :: ls)) : Narrated ls where
  headed m hm := h.headed m (List.mem_cons_of_mem _ hm)
  apart := List.IsChain.tail h.apart
  closed m hm := h.closed m (by cases ls <;> simp_all)

/-- Such lines are parted at their tags. -/
theorem Narrated.splitTags {ls : List (List Char)} (h : Narrated ls) :
    (splitTags ls).1 ++ (splitTags ls).2.flatMap Tag.lines = ls ∧ Closed (splitTags ls).1 ∧
      ∀ t ∈ (splitTags ls).2, Foreign t ∧ Closed t.lines := by
  induction ls with
  | nil => simp [DocComment.splitTags, Closed]
  | cons l ls ih =>
    obtain ⟨hall, hbefore, htags⟩ := ih h.tail
    have hclosed := closed_splitTags_cons h.apart h.closed hbefore
    by_cases hl : StartsTag l
    · obtain ⟨t, ht, rfl⟩ := h.headed l List.mem_cons_self hl
      rw [DocComment.splitTags, ht.tagOf?]
      refine ⟨?_, by simp [Closed], fun u hu => ?_⟩
      · exact congrArg (t.headline :: ·) hall
      · rcases List.mem_cons.mp hu with rfl | hu
        · exact ⟨ht.more _, hclosed⟩
        · exact htags u hu
    · rw [splitTags_cons_none hl]
      exact ⟨congrArg (l :: ·) hall, hclosed, htags⟩

/-- A tag of a description has its lines as its text. -/
theorem Foreign.tagText {t : Tag} (h : Foreign t) (hclosed : Closed t.lines) (hended : ∀ l ∈ t.more, Ended l)
    (hindent : commonIndentation t.more = 0) :
    DocComment.tagText t.first t.more = joinWith ['\n'] (t.first :: t.more) := by
  rw [tagText_flat hindent hended, trim_tight]
  constructor
  · by_cases hmore : t.more = []
    · simpa [hmore] using h.tight.1
    · rw [joinWith_cons _ _ hmore, List.append_assoc, List.head?_append, List.head?_eq_some_head h.worded,
        Option.some_or, ← List.head?_eq_some_head h.worded]
      exact h.tight.1
  · refine Closed.ended fun l hl => ?_
    cases hmore : t.more with
    | nil =>
      obtain rfl : t.first = l := by simpa [hmore] using hl
      exact ⟨h.worded, h.tight.2⟩
    | cons m more =>
      refine hclosed l ?_
      rw [hmore, List.getLast?_cons_cons] at hl
      rw [Tag.lines, hmore, List.getLast?_cons_cons]
      exact hl

/-- A tag as a part of a description: its name and its text. -/
def Tag.told (t : Tag) : List Char := '@' :: t.name ++ ' ' :: tagText t.first t.more

theorem Foreign.joinWith_lines {t : Tag} (h : Foreign t) :
    joinWith ['\n'] t.lines = '@' :: t.name ++ ' ' :: joinWith ['\n'] (t.first :: t.more) := by
  have hjoin := joinWith_behind ('@' :: t.name ++ [' ']) t.first t.more
  have hne : t.first.isEmpty = false := by simpa using h.worded
  simpa [Tag.lines, Tag.headline, hne] using hjoin

theorem Foreign.add {t : Tag} (h : Foreign t) (said : Said) :
    said.add t = { said with descriptions := said.descriptions ++ [t.told] } := by
  have hne : (DocComment.tagText t.first t.more).isEmpty = false := by
    simpa using tagText_ne_nil h.worded h.tight.1 t.more
  obtain ⟨htitle, hexample, hdefault, hsee⟩ : t.name ≠ "title".toList ∧ t.name ≠ "example".toList ∧
      t.name ≠ "default".toList ∧ t.name ≠ "see".toList := by simpa using h.unknown
  rw [Tag.told, Said.add]
  simp only [hne, Bool.false_eq_true, if_false, htitle, hexample, hdefault, hsee]

/-- What the tags of a description say is description. -/
theorem foldl_foreign {tags : List Tag} (h : ∀ t ∈ tags, Foreign t) (said : Said) :
    tags.foldl Said.add said = { said with descriptions := said.descriptions ++ tags.map Tag.told } := by
  induction tags generalizing said with
  | nil => simp
  | cons t tags ih =>
    rw [List.foldl_cons, (h t List.mem_cons_self).add said, ih fun u hu => h u (List.mem_cons_of_mem _ hu)]
    simp

theorem Narrated.tells {ls : List (List Char)} (h : Narrated ls) : DocComment.tells ls =
    (text? (trim (joinWith ['\n'] (DocComment.splitTags ls).1)),
      { descriptions := (DocComment.splitTags ls).2.map Tag.told }) := by
  obtain ⟨-, -, htags⟩ := h.splitTags
  rw [DocComment.tells, foldl_foreign fun t ht => (htags t ht).1]
  rfl

theorem joinWith_tags (tags : List Tag) :
    joinWith ['\n'] (tags.map fun t => joinWith ['\n'] t.lines) = joinWith ['\n'] (tags.flatMap Tag.lines) := by
  rw [List.flatMap_def, joinWith_flatten _ (by simp [Tag.lines]), List.map_map]
  rfl

theorem Foreign.startsTag {t : Tag} (h : Foreign t) : StartsTag t.headline := by
  by_contra hnot
  rw [← tagOf?_eq_none, h.tagOf?] at hnot
  cases hnot

theorem of_mem_lines {s : String} (h : Held s) {l : List Char} (hl : l ∈ lines s.toList) : '\n' ∉ l ∧ Unmarked l :=
  ⟨(h.isRow hl).1, fun hi => h.noMark (hi.trans (infix_of_mem_lines hl))⟩

/-- Where lines are parted, the first part starts where the whole starts. -/
theorem tight_before {before rest : List (List Char)} (hne : before ≠ []) (hclosed : Closed before)
    (ht : Tight (joinWith ['\n'] (before ++ rest))) : Tight (joinWith ['\n'] before) := by
  refine ⟨fun c hc => ht.1 c ?_, hclosed.ended⟩
  by_cases hrest : rest = []
  · rwa [hrest, List.append_nil]
  · rw [joinWith_append _ hne hrest, List.append_assoc, List.head?_append, hc]
    rfl

/-- Lines before tags, as the text that is read from them. -/
theorem text?_before {before rest : List (List Char)} (hne : before ≠ []) (hclosed : Closed before)
    (ht : Tight (joinWith ['\n'] (before ++ rest))) :
    text? (trim (joinWith ['\n'] before)) = some (String.ofList (joinWith ['\n'] before)) := by
  rw [trim_tight (tight_before hne hclosed ht), text?, if_neg (by simpa using hclosed.joinWith_ne_nil hne)]

/-- A description is read in two parts, the text before its first tag and its tags, and these are put together again. -/
theorem Narrated.steady {s : String} (h : Held s) (hn : Narrated (lines s.toList))
    (hflat : ∀ t ∈ (DocComment.splitTags (lines s.toList)).2, commonIndentation t.more = 0 ∧ ∀ l ∈ t.more, Ended l) :
    Steady s := by
  obtain ⟨hall, hbefore, htags⟩ := hn.splitTags
  have hplain := (splitTags_parts fun l hl => of_mem_lines h hl).1
  have hjoin := h.joinWith_lines
  have htell := hn.tells
  rw [← hall] at hjoin
  rcases hsplit : DocComment.splitTags (lines s.toList) with ⟨before, tags⟩
  simp only [hsplit] at hflat hall hbefore htags hplain hjoin htell
  by_cases htagged : tags = []
  · rw [htagged, List.flatMap_nil, List.append_nil] at hall
    exact steady_of_noTag h fun l hl => (hplain l (hall ▸ hl)).noTag
  have hrest : tags.flatMap Tag.lines ≠ [] := by
    obtain ⟨t, tags, rfl⟩ := List.exists_cons_of_ne_nil htagged
    simp [Tag.lines]
  have hclosed : Closed (tags.flatMap Tag.lines) := by
    intro l hl
    refine hn.closed l ?_
    rw [← hall, List.getLast?_append, hl]
    rfl
  have htold : tags.map Tag.told = tags.map fun t => joinWith ['\n'] t.lines := by
    refine List.map_congr_left fun t ht => ?_
    rw [(htags t ht).1.joinWith_lines, Tag.told, (htags t ht).1.tagText (htags t ht).2 (hflat t ht).2 (hflat t ht).1]
  have hdescription : (Said.annotations { descriptions := tags.map Tag.told }).description =
      some (String.ofList (joinWith ['\n'] (tags.flatMap Tag.lines))) := by
    simp [Said.annotations, htagged, htold, joinWith_tags]
  refine ⟨_, _, htell, ?_⟩
  rw [hdescription]
  by_cases hnil : before = []
  · rw [hnil, List.nil_append] at hjoin
    rw [hnil, hjoin, String.ofList_toList]
    exact Annotations.joined_tight "\n" h.nonempty h.tight
  · rw [text?_before hnil hbefore (hjoin ▸ h.tight)]
    rw [joinWith_append _ hnil hrest] at hjoin
    have hne := hbefore.joinWith_ne_nil hnil
    refine (Annotations.joined_pair ?_ (by simpa using hne) (by simpa using hclosed.joinWith_ne_nil hrest) ?_).trans ?_
    · -- only the second part starts with a tag
      intro heq
      have hrow : ∀ l ∈ before ++ tags.flatMap Tag.lines, IsRow l := fun l hl => h.isRow (hall ▸ hl)
      have hlines := congrArg lines (String.ofList_injective heq)
      rw [hbefore.lines_joinWith fun l hl => hrow l (List.mem_append_left _ hl),
        hclosed.lines_joinWith fun l hl => hrow l (List.mem_append_right _ hl)] at hlines
      obtain ⟨t, more, htags'⟩ := List.exists_cons_of_ne_nil htagged
      have hmem : t.headline ∈ before := by simp [hlines, htags', Tag.lines]
      exact (hplain _ hmem).noTag (htags t (by simp [htags'])).1.startsTag
    · simpa [hjoin] using h.tight
    · simp [hjoin]

theorem Closed.append {ls ms : List (List Char)} (hl : Closed ls) (hm : Closed ms) : Closed (ls ++ ms) := by
  intro l hlast
  rw [List.getLast?_append] at hlast
  rcases Option.or_eq_some_iff.mp hlast with hlast | ⟨-, hlast⟩
  · exact hm l hlast
  · exact hl l hlast

theorem Told.closed {ls : List (List Char)} (h : Told ls) : Closed ls := closed_of_tight h.tight h.nonempty

theorem closed_flatten {pieces : List (List (List Char))} (h : ∀ p ∈ pieces, Told p) : Closed pieces.flatten := by
  induction pieces with
  | nil => simp [Closed]
  | cons p pieces ih => exact (h p List.mem_cons_self).closed.append (ih fun q hq => h q (List.mem_cons_of_mem _ hq))

theorem Piece.apart {ls : List (List Char)} (h : Piece ls) : Apart ls := by
  obtain ⟨first, more, rfl⟩ := h.exists_first
  refine List.Pairwise.isChain (List.pairwise_cons.mpr ⟨fun m hm ht => absurd ht (h.noTag m hm), ?_⟩)
  exact List.pairwise_of_forall_mem_list fun _ _ m hm ht => absurd ht (h.noTag m hm)

/-- Lines that start no tag, and parts of a description behind them. -/
theorem narrated_append {base : List (List Char)} (hbase : ∀ l ∈ base, ¬StartsTag l) (hclosed : Closed base)
    {pieces : List (List (List Char))} (h : ∀ p ∈ pieces, Piece p) : Narrated (base ++ pieces.flatten) where
  headed l hl ht := by
    rcases List.mem_append.mp hl with hl | hl
    · exact absurd ht (hbase l hl)
    · obtain ⟨p, hp, hl⟩ := List.mem_flatten.mp hl
      have hpiece := h p hp
      obtain ⟨first, more, rfl⟩ := hpiece.exists_first
      rcases List.mem_cons.mp hl with rfl | hl
      · exact hpiece.headed l rfl ht
      · exact absurd ht (hpiece.noTag l hl)
  apart := by
    have hne : [] ∉ pieces := fun hm => (h [] hm).block.ne_nil rfl
    refine List.isChain_append.mpr ⟨?_, (List.isChain_flatten hne).mpr ⟨fun p hp => (h p hp).apart, ?_⟩, ?_⟩
    · exact List.Pairwise.isChain (List.pairwise_of_forall_mem_list fun _ _ m hm ht => absurd ht (hbase m hm))
    · refine List.Pairwise.isChain (List.pairwise_of_forall_mem_list fun p hp _ _ l hl _ _ _ => ?_)
      exact (h p hp).closed l hl
    · exact fun l hl _ _ _ => hclosed l hl
  closed := hclosed.append (closed_flatten fun p hp => (h p hp).toTold)

theorem of_text? {text : List Char} {s : String} (h : text? text = some s) : s.toList = text ∧ text ≠ [] := by
  rw [text?] at h
  split at h
  · cases h
  · next hne =>
    obtain rfl := Option.some.inj h
    exact ⟨String.toList_ofList, by simpa using hne⟩

/-- Texts of lines, as the lines that they are of. -/
theorem exists_parts {P : List (List Char) → Prop} {texts : List (List Char)}
    (h : ∀ s ∈ texts, ∃ ls, P ls ∧ s = joinWith ['\n'] ls) :
    ∃ parts : List (List (List Char)), (∀ ls ∈ parts, P ls) ∧ texts = parts.map (joinWith ['\n']) := by
  induction texts with
  | nil => exact ⟨[], by simp, rfl⟩
  | cons s texts ih =>
    obtain ⟨ls, hls, rfl⟩ := h s List.mem_cons_self
    obtain ⟨parts, hparts, rfl⟩ := ih fun t ht => h t (List.mem_cons_of_mem _ ht)
    exact ⟨ls :: parts, by simpa using ⟨hls, hparts⟩, rfl⟩

/-- Texts that are read from tags make one text, line after line. -/
theorem kept_flatten {parts : List (List (List Char))} (h : ∀ ls ∈ parts, Told ls) (hne : parts ≠ []) :
    joinWith ['\n'] (parts.map (joinWith ['\n'])) = joinWith ['\n'] parts.flatten ∧ Kept parts.flatten := by
  have hjoin := joinWith_flatten ['\n'] fun ls hls => (h ls hls).block.ne_nil
  have htexts : ∀ s ∈ parts.map (joinWith ['\n']), Tight s ∧ s ≠ [] := by
    simpa using fun ls hls => ⟨(h ls hls).tight, (h ls hls).nonempty⟩
  obtain ⟨htight, hnonempty⟩ := tight_joinWith ['\n'] htexts
  have hall : ∀ l ∈ parts.flatten, '\n' ∉ l ∧ Unmarked l ∧ Ended l := by
    intro l hl
    obtain ⟨ls, hls, hl⟩ := List.mem_flatten.mp hl
    exact ⟨(h ls hls).noBreak l hl, (h ls hls).unmarked l hl, (h ls hls).ended l hl⟩
  exact ⟨hjoin.symm, fun l hl => (hall l hl).1, fun l hl => (hall l hl).2.1, fun l hl => (hall l hl).2.2, hjoin ▸ htight,
    hjoin ▸ hnonempty (by simpa using hne)⟩

/-- A description as it is read: lines before all tags, and what tags say. -/
structure Described (base : List (List Char)) (pieces : List (List (List Char))) (s : String) : Prop where
  plain : ∀ l ∈ base, Plain l
  closed : Closed base
  piece : ∀ p ∈ pieces, Piece p
  lines : s.toList = joinWith ['\n'] (base ++ pieces.flatten)
  nonempty : s.toList ≠ []
  tight : Tight s.toList

theorem described_before {before : List (List Char)} (h : ∀ l ∈ before, Plain l) {s : String}
    (hs : text? (trim (joinWith ['\n'] before)) = some s) : ∃ base, Described base [] s := by
  obtain ⟨htext, hne⟩ := of_text? hs
  have htight := tight_trim (joinWith ['\n'] before)
  obtain ⟨base, hbase, hplain⟩ := trim_joinWith (P := Plain) (fun _ => .trimStart) (fun _ => .trimEnd) h
  rw [hbase] at htext hne htight
  exact ⟨base, hplain, closed_of_tight htight hne, by simp, by simpa using htext, htext ▸ hne, htext ▸ htight⟩

theorem described_said {said : Said} (h : said.Told) {s : String} (hs : said.annotations.description = some s) :
    ∃ pieces, Described [] pieces s := by
  simp only [Said.annotations, Option.ite_none_left_eq_some, Option.some.injEq, List.isEmpty_iff] at hs
  obtain ⟨hne, rfl⟩ := hs
  obtain ⟨pieces, hpieces, htexts⟩ := exists_parts h.descriptions
  rw [htexts] at hne
  obtain ⟨hjoin, hkept⟩ := kept_flatten (fun p hp => (hpieces p hp).toTold) (by simpa using hne)
  rw [htexts, hjoin]
  refine ⟨pieces, by simp, by simp [Closed], hpieces, by simp, ?_, ?_⟩ <;> rw [String.toList_ofList]
  · exact hkept.nonempty
  · exact hkept.tight

/-- The description that is read from a comment. -/
theorem exists_described {before : List (List Char)} (hbefore : ∀ l ∈ before, Plain l) {said : Said} (hsaid : said.Told)
    {s : String} (h : Annotations.joined "\n" ((text? (trim (joinWith ['\n'] before))).toList ++
      said.annotations.description.toList) = some s) : ∃ base pieces, Described base pieces s := by
  have hfirst : ∀ t ∈ text? (trim (joinWith ['\n'] before)), t.toList ≠ [] ∧ Tight t.toList := by
    intro t ht
    obtain ⟨base, hbase⟩ := described_before hbefore ht
    exact ⟨hbase.nonempty, hbase.tight⟩
  have hsecond : ∀ t ∈ said.annotations.description, t.toList ≠ [] ∧ Tight t.toList := by
    intro t ht
    obtain ⟨pieces, hpieces⟩ := described_said hsaid ht
    exact ⟨hpieces.nonempty, hpieces.tight⟩
  rcases Annotations.of_joined hfirst hsecond h with hs | hs | ⟨s₁, hs₁, s₂, hs₂, rfl⟩
  · obtain ⟨base, hbase⟩ := described_before hbefore hs
    exact ⟨base, [], hbase⟩
  · obtain ⟨pieces, hpieces⟩ := described_said hsaid hs
    exact ⟨[], pieces, hpieces⟩
  · obtain ⟨base, hbase⟩ := described_before hbefore hs₁
    obtain ⟨pieces, hpieces⟩ := described_said hsaid hs₂
    have hlines₁ := hbase.lines
    have hlines₂ := hpieces.lines
    rw [List.flatten_nil, List.append_nil] at hlines₁
    rw [List.nil_append] at hlines₂
    refine ⟨base, pieces, hbase.plain, hbase.closed, hpieces.piece, ?_, ?_, ?_⟩ <;> rw [String.toList_ofList]
    · rw [joinWith_append, hlines₁, hlines₂]
      · rfl
      · rintro rfl
        exact hbase.nonempty hlines₁
      · intro hnil
        rw [hnil] at hlines₂
        exact hpieces.nonempty hlines₂
    · simp
    · exact tight_between hbase.tight hbase.nonempty hpieces.tight hpieces.nonempty _

section

variable {base : List (List Char)} {pieces : List (List (List Char))} {s : String} (h : Described base pieces s)
include h

theorem Described.of_mem {l : List Char} (hl : l ∈ base ++ pieces.flatten) : '\n' ∉ l ∧ Unmarked l := by
  rcases List.mem_append.mp hl with hl | hl
  · exact ⟨(h.plain l hl).noBreak, (h.plain l hl).unmarked⟩
  · obtain ⟨p, hp, hl⟩ := List.mem_flatten.mp hl
    exact ⟨(h.piece p hp).noBreak l hl, (h.piece p hp).unmarked l hl⟩

theorem Described.narrated : Narrated (base ++ pieces.flatten) :=
  narrated_append (fun l hl => (h.plain l hl).noTag) h.closed h.piece

variable (hreturn : ¬['\r', '\n'] <:+: s.toList)
include hreturn

theorem Described.held : Held s where
  nonempty := h.nonempty
  tight := h.tight
  noBreak := hreturn
  noMark := h.lines ▸ Unmarked.joinWith fun _ hl => (h.of_mem hl).2

/-- A description is its lines, unless a carriage return ends one of them. -/
theorem Described.lines_eq : TypeSchema.lines s.toList = base ++ pieces.flatten := by
  have hrow : ∀ l ∈ base ++ pieces.flatten, IsRow l := by
    refine fun l hl => isRow_of_joinWith (fun m hm => (h.of_mem hm).1) ?_ ?_ hl <;> rw [← h.lines]
    · exact hreturn
    · exact fun hlast => absurd (h.tight.2 '\r' hlast) (by decide)
  rw [h.lines, h.narrated.closed.lines_joinWith hrow]

/-- A description that is read is read from its own lines, unless all later lines of a tag are indented. -/
theorem Described.steady (hflat : ∀ t ∈ (splitTags (TypeSchema.lines s.toList)).2, commonIndentation t.more = 0) :
    Steady s := by
  have hlines := h.lines_eq hreturn
  refine Narrated.steady (h.held hreturn) (hlines ▸ h.narrated) fun t ht => ⟨hflat t ht, fun l hl => ?_⟩
  -- the lines of tags are among those that tags were read from
  have hpieces : Narrated ([] ++ pieces.flatten) := narrated_append (by simp) (by simp [Closed]) h.piece
  rw [hlines, splitTags_append fun l hl => (h.plain l hl).noTag] at ht
  rw [List.nil_append] at hpieces
  have hmem : l ∈ pieces.flatten := by
    rw [← hpieces.splitTags.1]
    exact List.mem_append_right _ (List.mem_flatMap.mpr ⟨t, ht, List.mem_cons_of_mem _ hl⟩)
  obtain ⟨p, hp, hl⟩ := List.mem_flatten.mp hmem
  exact (h.piece p hp).ended l hl

end

end DocComment

namespace Annotations

open DocComment

theorem nodup_eraseDups (texts : List String) : texts.eraseDups.Nodup := by
  induction hn : texts.length using Nat.strong_induction_on generalizing texts with
  | _ n ih =>
    cases texts with
    | nil => simp
    | cons s texts =>
      have hlen := List.length_filter_le (fun t => !t == s) texts
      rw [List.eraseDups_cons, List.nodup_cons]
      refine ⟨?_, ih _ (by simp at hn; omega) _ rfl⟩
      simp [List.mem_eraseDups]

theorem nodup_distinctTexts (texts : List String) : (distinctTexts texts).Nodup := nodup_eraseDups _

theorem eraseDups_sublist (texts : List String) : texts.eraseDups.Sublist texts := by
  induction hn : texts.length using Nat.strong_induction_on generalizing texts with
  | _ n ih =>
    cases texts with
    | nil => exact List.Sublist.refl _
    | cons s texts =>
      have hlen := List.length_filter_le (fun t => !t == s) texts
      rw [List.eraseDups_cons]
      exact ((ih _ (by simp at hn; omega) _ rfl).trans List.filter_sublist).cons_cons s

theorem distinctTexts_sublist (texts : List String) : (distinctTexts texts).Sublist texts :=
  (eraseDups_sublist _).trans List.filter_sublist

/-- A list of texts as annotations hold it. -/
theorem proper_ofList? {texts : List String} (h : texts.Nodup) :
    ∀ list ∈ OneOrMany.ofList? texts, list.Proper ∧ list.toList = texts := by
  rcases texts with _ | ⟨s, _ | ⟨t, texts⟩⟩ <;> intro list hlist <;> cases hlist
  · exact ⟨trivial, rfl⟩
  · exact ⟨⟨by simp, h⟩, rfl⟩

theorem listed_ofList? (texts : List String) : listed (OneOrMany.ofList? texts) = texts := by
  rcases texts with _ | ⟨s, _ | ⟨t, texts⟩⟩ <;> rfl

/-- Annotations as they are read: a text before all tags, what the tags say, and the title that the place gives unless
they give one. -/
def ofSaid (before : Option String) (said : Said) (inferred : Option String) : Annotations :=
  merge [{ description := before }, { title := if said.title.isSome then none else inferred }, said.annotations]

section

variable (before : Option String) (said : Said) (inferred : Option String)

theorem ofSaid_description : (ofSaid before said inferred).description =
    joined "\n" (before.toList ++ said.annotations.description.toList) := by
  rw [ofSaid, merge_parts]

theorem ofSaid_examples : (ofSaid before said inferred).examples = OneOrMany.ofList? (distinctTexts said.examples) := by
  have hexamples : listed said.annotations.examples = said.examples := listed_ofList? said.examples
  rw [ofSaid, merge_parts, hexamples]

theorem ofSaid_defaultValue : (ofSaid before said inferred).defaultValue =
    (joined "\n" (said.annotations.defaultValue.map defaultText).toList).map .string := by
  rw [ofSaid, merge_parts]

theorem ofSaid_see : (ofSaid before said inferred).see = OneOrMany.ofList? (distinctTexts said.see) := by
  have hsee : listed said.annotations.see = said.see := listed_ofList? said.see
  rw [ofSaid, merge_parts, hsee]

end

/-- The title that is read: the one that a tag gives, or else the one that the place gives. -/
theorem ofSaid_title (before : Option String) {said : Said} (hsaid : said.Told) {inferred : Option String}
    (hinferred : ∀ t ∈ inferred, t.toList ≠ [] ∧ Tight t.toList) :
    (ofSaid before said inferred).title = said.title.or inferred := by
  have htitle : said.annotations.title = said.title := rfl
  rw [ofSaid, merge_parts, htitle]
  dsimp only
  cases hown : said.title with
  | some t =>
    obtain ⟨hheld, -⟩ := hsaid.title t hown
    exact joined_tight ", " hheld.nonempty hheld.tight
  | none =>
    cases inferred with
    | none => rfl
    | some t => exact joined_tight ", " (hinferred t rfl).1 (hinferred t rfl).2

/-- A title that is written was given by a tag. -/
theorem shownTitle_ofSaid (before : Option String) {said : Said} (hsaid : said.Told) {inferred : Option String}
    (hinferred : ∀ t ∈ inferred, t.toList ≠ [] ∧ Tight t.toList) {s : String}
    (hs : s ∈ shownTitle (ofSaid before said inferred) inferred) : s ∈ said.title := by
  rw [shownTitle, ofSaid_title before hsaid hinferred] at hs
  split at hs
  · cases hs
  · next hne =>
    cases hown : said.title with
    | none => simp [hown] at hne
    | some t => simpa [hown] using hs

/-- The default that is read holds the texts of all tags for it. -/
theorem kept_default {said : Said} (hsaid : said.Told) :
    ∀ v ∈ (joined "\n" (said.annotations.defaultValue.map defaultText).toList).map Json.string,
      ∃ s ls, v = .string s ∧ Kept ls ∧ s.toList = joinWith ['\n'] ls := by
  intro v hv
  obtain ⟨parts, hparts, htexts⟩ := exists_parts hsaid.defaults
  by_cases hne : parts = []
  · simp only [Said.annotations, htexts, hne, List.map_nil, List.isEmpty_nil, if_true, Option.map_none,
      Option.toList_none] at hv
    cases hv
  · obtain ⟨hjoin, hkept⟩ := kept_flatten hparts hne
    have htext : (String.ofList (joinWith ['\n'] parts.flatten)).toList = joinWith ['\n'] parts.flatten :=
      String.toList_ofList
    have hjoined := joined_tight "\n" (by rw [htext]; exact hkept.nonempty) (by rw [htext]; exact hkept.tight)
    have hsome : (parts.map (joinWith ['\n'])).isEmpty = false := by simpa using hne
    simp only [Said.annotations, htexts, hsome, hjoin, Bool.false_eq_true, if_false, Option.map_some, Option.toList_some,
      defaultText, hjoined, Option.mem_some] at hv
    exact ⟨_, parts.flatten, hv.symm, hkept, htext⟩

/-- Annotations that were read from a comment. -/
structure Gathered (a : Annotations) (inferred : Option String) : Prop where
  description : ∀ s ∈ a.description, ∃ base pieces, Described base pieces s
  title : ∀ s ∈ shownTitle a inferred, Held s ∧ '\n' ∉ s.toList
  examples : ∀ texts ∈ a.examples, texts.Proper ∧ ∀ s ∈ texts.toList, ∃ ls, Told ls ∧ s.toList = joinWith ['\n'] ls
  default : ∀ v ∈ a.defaultValue, ∃ s ls, v = .string s ∧ Kept ls ∧ s.toList = joinWith ['\n'] ls
  see : ∀ texts ∈ a.see, texts.Proper ∧ ∀ s ∈ texts.toList, ∃ ls, Told ls ∧ s.toList = joinWith ['\n'] ls

section
variable {a : Annotations} {inferred : Option String} (h : a.Gathered inferred)
include h

theorem Gathered.example_held {s : String} (hs : s ∈ listed a.examples) : Held s ∧ NoTrailing s := by
  obtain ⟨list, hlist, hs⟩ := mem_listed hs
  obtain ⟨ls, htold, htext⟩ := (h.examples list hlist).2 s hs
  exact ⟨htold.held htext, htold.noTrailing htext⟩

theorem Gathered.default_held {v : Json} (hv : v ∈ a.defaultValue) : ∃ s, v = .string s ∧ Held s ∧ NoTrailing s := by
  obtain ⟨s, ls, rfl, hkept, htext⟩ := h.default v hv
  exact ⟨s, rfl, hkept.held htext, hkept.noTrailing htext⟩

theorem Gathered.see_held {s : String} (hs : s ∈ listed a.see) : Held s ∧ NoTrailing s := by
  obtain ⟨list, hlist, hs⟩ := mem_listed hs
  obtain ⟨ls, htold, htext⟩ := (h.see list hlist).2 s hs
  exact ⟨htold.held htext, htold.noTrailing htext⟩

end

/-- What lines of a comment say. -/
theorem gathered_ofSaid {before : Option String} {said : Said} (hsaid : said.Told)
    (hbefore : ∃ ls, (∀ l ∈ ls, Plain l) ∧ before = text? (trim (joinWith ['\n'] ls))) {inferred : Option String}
    (hinferred : ∀ t ∈ inferred, t.toList ≠ [] ∧ Tight t.toList) : (ofSaid before said inferred).Gathered inferred := by
  have hlisted : ∀ {texts : List String} {list : OneOrMany}, OneOrMany.ofList? (distinctTexts texts) = some list →
      list.Proper ∧ ∀ s ∈ list.toList, s ∈ texts := by
    intro texts list hlist
    obtain ⟨hproper, hall⟩ := proper_ofList? (nodup_distinctTexts texts) list hlist
    exact ⟨hproper, fun s hs => (distinctTexts_sublist texts).subset (hall ▸ hs)⟩
  refine ⟨?_, ?_, ?_, ?_, ?_⟩
  · intro s hs
    obtain ⟨ls, hplain, rfl⟩ := hbefore
    exact exists_described hplain hsaid ((ofSaid_description _ said inferred).symm.trans hs)
  · exact fun s hs => hsaid.title s (shownTitle_ofSaid before hsaid hinferred hs)
  · intro texts ht
    obtain ⟨hproper, hall⟩ := hlisted ((ofSaid_examples before said inferred).symm.trans ht)
    exact ⟨hproper, fun s hs => hsaid.examples s (hall s hs)⟩
  · exact fun v hv => kept_default hsaid v (ofSaid_defaultValue before said inferred ▸ hv)
  · intro texts ht
    obtain ⟨hproper, hall⟩ := hlisted ((ofSaid_see before said inferred).symm.trans ht)
    exact ⟨hproper, fun s hs => hsaid.see s (hall s hs)⟩

/-- Annotations that were read from a comment come back from the one that is written of them if nothing in them is read
otherwise there: no carriage return ends a line of the description, and no tag in it has all its later lines indented; a
description that is written on the line of the comment marks does not start with a star; no example starts a tag, nor
does a later line of the default; and the later lines of a default or a link are not all indented. -/
structure Settled (a : Annotations) (inferred : Option String) : Prop where
  returns : ∀ s ∈ a.description, ¬['\r', '\n'] <:+: s.toList
  tags : ∀ s ∈ a.description, ∀ t ∈ (splitTags (lines s.toList)).2, commonIndentation t.more = 0
  star : ∀ s, sections a inferred = [s] → '\n' ∉ s → s.head? ≠ some '*'
  examples : ∀ s ∈ listed a.examples, ∀ line ∈ lines s.toList, ¬StartsTag line
  default : ∀ s, a.defaultValue = some (.string s) → Flush s ∧ ∀ line ∈ (lines s.toList).tail, ¬StartsTag line
  see : ∀ s ∈ listed a.see, Flush s

theorem mem_listed_of_mem {texts : Option OneOrMany} {list : OneOrMany} (hlist : list ∈ texts) {s : String}
    (hs : s ∈ list.toList) : s ∈ listed texts := by
  obtain rfl : texts = some list := hlist
  exact hs

/-- Such annotations are read again. -/
theorem Settled.steady {a : Annotations} {inferred : Option String} (h : a.Settled inferred) (ha : a.Gathered inferred) :
    a.Steady inferred where
  description s hs := by
    obtain ⟨base, pieces, hdescribed⟩ := ha.description s hs
    exact ⟨hdescribed.held (h.returns s hs), hdescribed.steady (h.returns s hs) (h.tags s hs)⟩
  star := h.star
  title := ha.title
  examples texts ht := by
    obtain ⟨hproper, hall⟩ := ha.examples texts ht
    refine ⟨hproper, fun s hs => ?_⟩
    obtain ⟨ls, htold, htext⟩ := hall s hs
    exact ⟨htold.held htext, htold.noTrailing htext, h.examples s (mem_listed_of_mem ht hs)⟩
  default v hv := by
    obtain ⟨s, rfl, hheld, hends⟩ := ha.default_held hv
    obtain ⟨hflush, htag⟩ := h.default s hv
    exact ⟨s, rfl, hheld, hends, hflush, htag⟩
  see texts ht := by
    obtain ⟨hproper, hall⟩ := ha.see texts ht
    refine ⟨hproper, fun s hs => ?_⟩
    obtain ⟨ls, htold, htext⟩ := hall s hs
    exact htold.behind htext (h.see s (mem_listed_of_mem ht hs))

end Annotations

namespace DocComment

/-- What is read from a comment is what its lines say. -/
theorem read_some (raw : String) (path : Path) : read (some raw) path =
    Annotations.ofSaid (tells (commentLines raw.toList)).1 (tells (commentLines raw.toList)).2 path.title? := by
  have htitle : ∀ said : Said, said.annotations.title = said.title := fun _ => rfl
  simp only [read, parse_tells, htitle, Annotations.ofSaid]

/-- Annotations that are read from a comment are read from the comment that is written of them, unless something in them
is read otherwise there. -/
theorem read_render_of_settled (raw : String) (path : Path) (hpath : ∀ t ∈ path.title?, t.toList ≠ [] ∧ Tight t.toList)
    (h : (read (some raw) path).Settled path.title?) :
    read (render (read (some raw) path) path.title?) path = read (some raw) path := by
  obtain ⟨hbefore, hsaid⟩ := told_tells raw.toList
  rw [read_some] at h ⊢
  generalize tells (commentLines raw.toList) = told at *
  have htitle := Annotations.ofSaid_title told.1 hsaid hpath
  have hown : (Annotations.ofSaid told.1 told.2 path.title?).title.or path.title? =
      (Annotations.ofSaid told.1 told.2 path.title?).title := by
    rw [htitle, Option.or_assoc, Option.or_self]
  rw [(h.steady (Annotations.gathered_ofSaid hsaid hbefore hpath)).read_back, hown]
  rw [hown, htitle]
  intro t ht
  rcases Option.or_eq_some_iff.mp ht with ht | ⟨-, ht⟩
  · exact ⟨(hsaid.title t ht).1.nonempty, (hsaid.title t ht).1.tight⟩
  · exact hpath t ht

end DocComment

end TypeSchema
