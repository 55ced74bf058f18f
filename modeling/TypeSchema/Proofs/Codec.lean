import TypeSchema.Proofs.CommentTexts

namespace TypeSchema

theorem paragraphs_eq_singleton {ps : List (List (List Char))} (h : ∀ p ∈ ps, p ≠ []) {line : List Char}
    (hp : paragraphs ps = [line]) : ps = [[line]] := by
  cases ps with
  | nil => simp [paragraphs] at hp
  | cons p ps =>
    by_cases hps : ps = []
    · subst hps
      rw [paragraphs] at hp
      rw [hp]
    · rw [paragraphs_cons p hps] at hp
      cases p with
      | nil => exact absurd rfl (h [] List.mem_cons_self)
      | cons l p => simp at hp

namespace Annotations

theorem eraseDups_of_nodup {texts : List String} (h : texts.Nodup) : texts.eraseDups = texts := by
  induction texts with
  | nil => rfl
  | cons s texts ih =>
    obtain ⟨hs, ht⟩ := List.nodup_cons.mp h
    have hfilter : texts.filter (fun t => !t == s) = texts := by
      rw [List.filter_eq_self]
      intro t hm
      simpa using fun he : t = s => hs (he ▸ hm)
    rw [List.eraseDups_cons, hfilter, ih ht]

theorem distinctTexts_of_nodup {texts : List String} (h : texts.Nodup) (hc : ∀ s ∈ texts, s.toList ≠ []) :
    distinctTexts texts = texts := by
  have hfilter : texts.filter (· ≠ "") = texts := by
    rw [List.filter_eq_self]
    intro s hs
    simpa using fun he : s = "" => hc s hs (by rw [he]; rfl)
  rw [distinctTexts, hfilter, eraseDups_of_nodup h]

theorem joined_tight (separator : String) {s : String} (hn : s.toList ≠ []) (ht : Tight s.toList) :
    joined separator [s] = some s := by
  have hne : s ≠ "" := fun he => hn (by rw [he]; rfl)
  have hd : distinctTexts [s] = [s] := by simp [distinctTexts, hne, List.eraseDups_cons]
  simp [joined, hd, joinTexts, trimmed, trim_tight ht, hne]

end Annotations

namespace DocComment

/-- A description that is read from its own lines, whatever tags start in them. -/
def Steady (s : String) : Prop :=
  ∃ before said, tells (lines s.toList) = (before, { descriptions := said }) ∧
    Annotations.joined "\n" (before.toList ++ (Said.annotations { descriptions := said }).description.toList) = some s

/-- A text without tags is one. -/
theorem steady_of_noTag {s : String} (h : Held s) (htag : ∀ line ∈ lines s.toList, ¬StartsTag line) : Steady s := by
  have hsplit := splitTags_append htag []
  rw [List.append_nil, splitTags, List.append_nil] at hsplit
  refine ⟨some s, [], ?_, Annotations.joined_tight "\n" h.nonempty h.tight⟩
  rw [tells, hsplit, h.joinWith_lines, trim_tight h.tight, text?, if_neg (by simpa using h.nonempty), String.ofList_toList]
  rfl

end DocComment

open DocComment

/-- A text that is read again behind a tag. -/
structure Behind (s : String) : Prop extends Held s where
  noTrailing : NoTrailing s
  flush : Flush s
  noTag : ∀ line ∈ (lines s.toList).tail, ¬StartsTag line

/-- A text that is read again below a tag. -/
structure Below (s : String) : Prop extends Held s where
  noTrailing : NoTrailing s
  noTag : ∀ line ∈ lines s.toList, ¬StartsTag line

/-- Annotations that are read back from the comment that is written of them: a description may hold tags that are
description again, and a title that the place gives is not written. -/
structure Annotations.Steady (a : Annotations) (inferred : Option String) : Prop where
  description : ∀ s ∈ a.description, Held s ∧ DocComment.Steady s
  star : ∀ s, DocComment.sections a inferred = [s] → '\n' ∉ s → s.head? ≠ some '*'
  title : ∀ s ∈ shownTitle a inferred, Held s ∧ '\n' ∉ s.toList
  examples : ∀ texts ∈ a.examples, texts.Proper ∧ ∀ s ∈ texts.toList, Below s
  default : ∀ v ∈ a.defaultValue, ∃ s, v = .string s ∧ Behind s
  see : ∀ texts ∈ a.see, texts.Proper ∧ ∀ s ∈ texts.toList, Behind s

/-- Annotations whose texts a comment holds line by line, whatever is read from these lines. -/
structure Annotations.Enclosed (a : Annotations) (inferred : Option String) : Prop where
  description : ∀ s ∈ a.description, Held s
  title : ∀ s ∈ shownTitle a inferred, Held s ∧ '\n' ∉ s.toList
  examples : ∀ s ∈ listed a.examples, Held s
  default : ∀ v ∈ a.defaultValue, ∃ s, v = .string s ∧ Held s
  see : ∀ s ∈ listed a.see, Held s

namespace DocComment

theorem isTagName_title : IsTagName "title" := .of_all rfl (c := 't') (by decide) (by decide)

theorem isTagName_example : IsTagName "example" := .of_all rfl (c := 'e') (by decide) (by decide)

theorem isTagName_default : IsTagName "default" := .of_all rfl (c := 'd') (by decide) (by decide)

theorem isTagName_see : IsTagName "see" := .of_all rfl (c := 's') (by decide) (by decide)

/-- A text of one line has no later lines. -/
theorem lines_one {s : String} (h : Held s) (hl : '\n' ∉ s.toList) : lines s.toList = [s.toList] :=
  lines_line hl h.nonempty

theorem behind_one {s : String} (h : Held s) (hl : '\n' ∉ s.toList) : Behind s where
  toHeld := h
  noTrailing line hm := by
    rw [lines_one h hl, List.mem_singleton] at hm
    exact hm ▸ h.tight.2
  flush hne := by simp [lines_one h hl] at hne
  noTag line hm := by simp [lines_one h hl] at hm

/-- The blocks of a comment: its description and its tags. -/
def blocks (a : Annotations) (inferred : Option String) : List (List (List Char)) :=
  (a.description.map fun s => lines s.toList).toList ++ (tagsOf a inferred).map Tag.lines

theorem mem_shownTitle {a : Annotations} {inferred : Option String} {s : String} (h : s ∈ shownTitle a inferred) :
    s ∈ a.title := by
  unfold shownTitle at h
  split at h
  · cases h
  · exact h

theorem mem_listed {texts : Option OneOrMany} {s : String} (h : s ∈ Annotations.listed texts) :
    ∃ list ∈ texts, s ∈ list.toList := by
  cases texts with
  | none => simp [Annotations.listed] at h
  | some list => exact ⟨list, rfl, by simpa [Annotations.listed] using h⟩

variable {a : Annotations} {inferred : Option String}

/-- A section of a comment is the description, or starts a tag. -/
theorem head?_of_mem_sections {s : List Char} (hs : s ∈ sections a inferred) :
    (∃ d ∈ a.description, d.toList = s) ∨ s.head? = some '@' := by
  simp only [sections, List.mem_append, Option.mem_toList, Option.map_eq_some_iff, List.mem_map] at hs
  rcases hs with (((⟨d, hd, rfl⟩ | hs) | ⟨_, -, rfl⟩) | ⟨_, -, rfl⟩) | ⟨_, -, rfl⟩
  · exact .inl ⟨d, hd, rfl⟩
  · split at hs
    · split at hs
      · cases hs
      · exact .inr (by rw [List.mem_singleton.mp hs]; rfl)
    · cases hs
  all_goals exact .inr rfl

section

variable (h : a.Steady inferred)
include h

theorem mem_examples : ∀ s ∈ Annotations.listed a.examples, Below s := by
  intro s hs
  obtain ⟨list, hlist, hs⟩ := mem_listed hs
  exact (h.examples list hlist).2 s hs

theorem mem_see : ∀ s ∈ Annotations.listed a.see, Behind s := by
  intro s hs
  obtain ⟨list, hlist, hs⟩ := mem_listed hs
  exact (h.see list hlist).2 s hs

theorem enclosed_of_steady : a.Enclosed inferred where
  description s hs := (h.description s hs).1
  title := h.title
  examples s hs := (mem_examples h s hs).toHeld
  default v hv := (h.default v hv).imp fun _ hs => ⟨hs.1, hs.2.toHeld⟩
  see s hs := (mem_see h s hs).toHeld

theorem tagsOf_proper : ∀ t ∈ tagsOf a inferred, t.Proper := by
  have hline : ∀ {name s}, IsTagName name → Behind s → (lineTag name s).Proper :=
    fun hname hs => proper_lineTag hname hs.toHeld hs.noTrailing hs.noTag
  intro t ht
  simp only [tagsOf, List.mem_append, List.mem_map, Option.mem_toList, Option.map_eq_some_iff] at ht
  rcases ht with ((⟨s, hs, rfl⟩ | ⟨s, hs, rfl⟩) | ⟨_, ⟨v, hv, rfl⟩, rfl⟩) | ⟨s, hs, rfl⟩
  · obtain ⟨hc, hl⟩ := h.title s hs
    exact hline isTagName_title (behind_one hc hl)
  · exact proper_blockTag isTagName_example (mem_examples h s hs).noTag
  · obtain ⟨s, rfl, hs⟩ := h.default v hv
    exact hline isTagName_default hs
  · exact hline isTagName_see (mem_see h s hs)

end

section

variable (h : a.Enclosed inferred)
include h

theorem tagsOf_block : ∀ t ∈ tagsOf a inferred, Block t.lines := by
  intro t ht
  simp only [tagsOf, List.mem_append, List.mem_map, Option.mem_toList, Option.map_eq_some_iff] at ht
  rcases ht with ((⟨s, hs, rfl⟩ | ⟨s, hs, rfl⟩) | ⟨_, ⟨v, hv, rfl⟩, rfl⟩) | ⟨s, hs, rfl⟩
  · exact block_lineTag isTagName_title (h.title s hs).1
  · exact block_blockTag isTagName_example (h.examples s hs)
  · obtain ⟨s, rfl, hs⟩ := h.default v hv
    exact block_lineTag isTagName_default hs
  · exact block_lineTag isTagName_see (h.see s hs)

theorem blocks_block : ∀ p ∈ blocks a inferred, Block p := by
  intro p hp
  simp only [blocks, List.mem_append, Option.mem_toList, Option.map_eq_some_iff, List.mem_map] at hp
  rcases hp with ⟨s, hs, rfl⟩ | ⟨t, ht, rfl⟩
  · exact (h.description s hs).block
  · exact tagsOf_block h t ht

theorem sections_eq : sections a inferred = (blocks a inferred).map (joinWith ['\n']) := by
  have hdesc : (a.description.map String.toList).toList =
      (a.description.map fun s => lines s.toList).toList.map (joinWith ['\n']) := by
    cases hd : a.description with
    | none => rfl
    | some s => simp [(h.description s hd).joinWith_lines]
  have hexamples : (Annotations.listed a.examples).map (fun example_ =>
      "@example\n".toList ++ joinWith ['\n'] ((lines example_.toList).map ("    ".toList ++ ·))) =
        (Annotations.listed a.examples).map fun s => joinWith ['\n'] (blockTag "example" s).lines := by
    refine List.map_congr_left fun s hs => ?_
    rw [joinWith_blockTag (h.examples s hs)]
    rfl
  have hdefault : (a.defaultValue.map fun value =>
      "@default ".toList ++ (Annotations.defaultText value).toList).toList =
        (a.defaultValue.map Annotations.defaultText).toList.map fun s =>
          joinWith ['\n'] (lineTag "default" s).lines := by
    cases hv : a.defaultValue with
    | none => rfl
    | some v =>
      obtain ⟨s, rfl, hs⟩ := h.default v hv
      simp [Annotations.defaultText, joinWith_lineTag hs]
  have hsee : (Annotations.listed a.see).map (fun link => "@see ".toList ++ link.toList) =
      (Annotations.listed a.see).map fun s => joinWith ['\n'] (lineTag "see" s).lines := by
    refine List.map_congr_left fun s hs => ?_
    rw [joinWith_lineTag (h.see s hs)]
    rfl
  have htitle := h.title
  rw [sections, hdesc, hexamples, hdefault, hsee, blocks, tagsOf]
  unfold shownTitle at htitle ⊢
  cases ht : a.title with
  | none => simp [Function.comp_def]
  | some s =>
    by_cases hs : some s = inferred
    · simp [hs, Function.comp_def]
    · rw [ht, if_neg hs] at htitle
      have hj : joinWith ['\n'] (lineTag "title" s).lines = _ := joinWith_lineTag (htitle s rfl).1
      simp [hs, hj, Function.comp_def]

theorem blocks_ne_nil : ∀ p ∈ blocks a inferred, p ≠ [] := fun p hp => (blocks_block h p hp).ne_nil

/-- A comment is written around the blocks of its annotations, if there are any. -/
theorem render_eq : render a inferred = if blocks a inferred = [] then none else
    some (String.ofList (comment (escape (joinWith ['\n'] (paragraphs (blocks a inferred)))))) := by
  rw [render, sections_eq h, ← joinWith_paragraphs (blocks_ne_nil h), replaceAll_escape]
  by_cases hb : blocks a inferred = []
  · rw [hb]
    rfl
  · have hblock := block_paragraphs hb (blocks_block h)
    have hne : (escape (joinWith ['\n'] (paragraphs (blocks a inferred)))).isEmpty = false := by
      simpa using mt escape_eq_nil.mp hblock.nonempty
    simp only [trim_tight hblock.tight, hne, hb, Bool.false_eq_true, if_false, comment]
    split <;> rfl

/-- A comment says what its blocks say. -/
theorem tells_comment (hstar : ∀ s, sections a inferred = [s] → '\n' ∉ s → s.head? ≠ some '*')
    (hb : blocks a inferred ≠ []) :
    tells (commentLines (comment (escape (joinWith ['\n'] (paragraphs (blocks a inferred)))))) =
      tells ((blocks a inferred).flatMap (· ++ [[]])) := by
  have hblock := block_paragraphs hb (blocks_block h)
  match hp : paragraphs (blocks a inferred), hblock with
  | [], hblock => exact absurd rfl hblock.ne_nil
  | [line], hblock =>
    have hone := paragraphs_eq_singleton (blocks_ne_nil h) hp
    have hline : line.head? ≠ some '*' :=
      hstar line (by rw [sections_eq h, hone, List.map_singleton, joinWith_singleton]) (hblock.isRow line (by simp)).1
    rw [commentLines_one hblock, withoutStar_line hblock hline, tells_blank (blank_of_all (by decide)), hone,
      List.flatMap_singleton, tells_append_nil]
  | l :: m :: ls, hblock =>
    rw [commentLines_more hblock, ← hp, List.cons_append, tells_nil_cons, paragraphs_append hb]

end

section

variable (h : a.Steady inferred)
include h

/-- The blocks of a comment say what the description says, and then what the tags say. -/
theorem tells_blocks : ∃ before said, tells ((blocks a inferred).flatMap (· ++ [[]])) =
      (before, (tagsOf a inferred).foldl Said.add { descriptions := said }) ∧
    Annotations.joined "\n" (before.toList ++ (Said.annotations { descriptions := said }).description.toList) =
      a.description := by
  rw [blocks, List.flatMap_append, List.flatMap_map, tells_append_tags _ (tagsOf_proper h)]
  cases hd : a.description with
  | none => exact ⟨none, [], rfl, rfl⟩
  | some s =>
    obtain ⟨before, said, htell, hjoined⟩ := (h.description s hd).2
    refine ⟨before, said, ?_, hjoined⟩
    rw [Option.map_some, Option.toList_some, List.flatMap_singleton, tells_append_nil, htell]

omit h in
theorem add_title (said : Said) {s : String} (hs : Held s) (hl : '\n' ∉ s.toList) :
    said.add (lineTag "title" s) = { said with title := said.title.or (some s) } := by
  have hbehind := behind_one hs hl
  have ht : tagText (lineTag "title" s).first (lineTag "title" s).more = s.toList :=
    lineText_eq hs hbehind.noTrailing hbehind.flush
  have hne : s.toList.isEmpty = false := by simpa using hs.nonempty
  have hn : ∀ c ∈ s.toList, (c != '\n') = true := by
    intro c hc
    simpa using fun he : c = '\n' => hl (he ▸ hc)
  have htake := List.takeWhile_eq_self_iff.mpr hn
  have hdrop := List.dropWhile_eq_nil_iff.mpr hn
  simp only [Said.add, ht, hne]
  simp [lineTag, htake, hdrop, trim_tight hs.tight]
  rfl

omit h in
theorem add_example (said : Said) {s : String} (hs : Below s) :
    said.add (blockTag "example" s) = { said with examples := said.examples ++ [s] } := by
  have hne : s.toList.isEmpty = false := by simpa using hs.nonempty
  simp only [Said.add, tagText_blockTag hs.toHeld hs.noTrailing, hne]
  simp [blockTag]

omit h in
theorem add_default (said : Said) {s : String} (hs : Held s) :
    said.add (lineTag "default" s) = { said with defaults := said.defaults ++ [lineText s] } := by
  have ht : tagText (lineTag "default" s).first (lineTag "default" s).more = lineText s := rfl
  have hne : (lineText s).isEmpty = false := by simpa using lineText_ne_nil hs
  simp only [Said.add, ht, hne]
  simp [lineTag]

omit h in
theorem add_see (said : Said) {s : String} (hs : Held s) :
    said.add (lineTag "see" s) = { said with see := said.see ++ [String.ofList (lineText s)] } := by
  have ht : tagText (lineTag "see" s).first (lineTag "see" s).more = lineText s := rfl
  have hne : (lineText s).isEmpty = false := by simpa using lineText_ne_nil hs
  simp only [Said.add, ht, hne]
  simp [lineTag]

omit h in
theorem foldl_examples (said : Said) {texts : List String} (ht : ∀ s ∈ texts, Below s) :
    (texts.map (blockTag "example")).foldl Said.add said = { said with examples := said.examples ++ texts } := by
  induction texts generalizing said with
  | nil => simp
  | cons s texts ih =>
    rw [List.map_cons, List.foldl_cons, add_example said (ht s List.mem_cons_self),
      ih _ fun t hm => ht t (List.mem_cons_of_mem _ hm)]
    simp

omit h in
theorem foldl_see (said : Said) {texts : List String} (ht : ∀ s ∈ texts, Held s) :
    (texts.map (lineTag "see")).foldl Said.add said =
      { said with see := said.see ++ texts.map fun s => String.ofList (lineText s) } := by
  induction texts generalizing said with
  | nil => simp
  | cons s texts ih =>
    rw [List.map_cons, List.foldl_cons, add_see said (ht s List.mem_cons_self),
      ih _ fun t hm => ht t (List.mem_cons_of_mem _ hm)]
    simp

omit h in
/-- What the tags of a comment say, behind a description. -/
theorem foldl_tagsOf (h : a.Enclosed inferred) (hexamples : ∀ s ∈ Annotations.listed a.examples, Below s)
    (said : List (List Char)) : (tagsOf a inferred).foldl Said.add { descriptions := said } = {
      title := shownTitle a inferred
      descriptions := said
      examples := Annotations.listed a.examples
      defaults := (a.defaultValue.map fun v => lineText (Annotations.defaultText v)).toList
      see := (Annotations.listed a.see).map fun s => String.ofList (lineText s) } := by
  have htitle : ((shownTitle a inferred).toList.map (lineTag "title")).foldl Said.add { descriptions := said } =
      { title := shownTitle a inferred, descriptions := said } := by
    cases hs : shownTitle a inferred with
    | none => rfl
    | some s =>
      obtain ⟨hc, hl⟩ := h.title s hs
      simp [add_title _ hc hl]
  have hdefault : ∀ said : Said,
      ((a.defaultValue.map Annotations.defaultText).toList.map (lineTag "default")).foldl Said.add said =
        { said with
          defaults := said.defaults ++ (a.defaultValue.map fun v => lineText (Annotations.defaultText v)).toList } := by
    intro said
    cases hv : a.defaultValue with
    | none => simp
    | some v =>
      obtain ⟨s, rfl, hs⟩ := h.default v hv
      simp [Annotations.defaultText, add_default said hs]
  simp only [tagsOf, List.foldl_append, htitle, foldl_examples _ hexamples, hdefault, foldl_see _ h.see, List.nil_append]

omit h in
theorem ofList?_listed {texts : Option OneOrMany} (ht : ∀ list ∈ texts, list.Proper) :
    OneOrMany.ofList? (Annotations.listed texts) = texts := by
  cases texts with
  | none => rfl
  | some list =>
    cases list with
    | one s => rfl
    | many ss =>
      have hlen := (ht _ rfl).1
      match ss, hlen with
      | s :: t :: ss, _ => rfl

/-- The tags of a comment give the annotations back, but for the description. -/
theorem annotations_tagsOf (said : List (List Char)) :
    ((tagsOf a inferred).foldl Said.add { descriptions := said }).annotations =
      { a with
        title := shownTitle a inferred
        description := (Said.annotations { descriptions := said }).description } := by
  have htext : ∀ {s}, Behind s → lineText s = s.toList := fun hs => lineText_eq hs.toHeld hs.noTrailing hs.flush
  have hsee : ((Annotations.listed a.see).map fun s => String.ofList (lineText s)) = Annotations.listed a.see := by
    refine (List.map_congr_left fun s hs => ?_).trans (List.map_id _)
    rw [htext (mem_see h s hs), String.ofList_toList, id]
  rw [foldl_tagsOf (enclosed_of_steady h) (mem_examples h), hsee, Said.annotations]
  simp only [ofList?_listed fun list hl => (h.examples list hl).1, ofList?_listed fun list hl => (h.see list hl).1]
  cases hv : a.defaultValue with
  | none => rfl
  | some v =>
    obtain ⟨s, rfl, hs⟩ := h.default v hv
    simp [Annotations.defaultText, Said.annotations, htext hs]

omit h in
/-- A comment is read as what its lines say. -/
theorem parse_tells (raw : String) :
    parse raw = ((tells (commentLines raw.toList)).1, (tells (commentLines raw.toList)).2.annotations) := by
  unfold parse tells commentLines
  rcases splitTags ((lines (content raw.toList)).map withoutStar) with ⟨before, tags⟩
  rfl

/-- A comment is read as what it was written for, the description in two parts. -/
theorem parse_comment (hb : blocks a inferred ≠ []) : ∃ before description,
    parse (String.ofList (comment (escape (joinWith ['\n'] (paragraphs (blocks a inferred)))))) =
      (before, { a with title := shownTitle a inferred, description }) ∧
    Annotations.joined "\n" (before.toList ++ description.toList) = a.description := by
  obtain ⟨before, said, htell, hjoined⟩ := tells_blocks h
  refine ⟨before, _, ?_, hjoined⟩
  rw [parse_tells, String.toList_ofList, tells_comment (enclosed_of_steady h) h.star hb, htell, annotations_tagsOf h]

end

end DocComment

namespace Annotations

theorem nodup_listed {texts : Option OneOrMany} (h : ∀ list ∈ texts, list.Proper) : (listed texts).Nodup := by
  cases texts with
  | none => simp [listed]
  | some list =>
    cases list with
    | one s => simp [listed, OneOrMany.toList]
    | many ss => simpa [listed, OneOrMany.toList] using (h _ rfl).2

/-- A description, a title and other annotations as one. -/
theorem merge_parts (before given : Option String) (a : Annotations) :
    merge [{ description := before }, { title := given }, a] = {
      title := joined ", " (given.toList ++ a.title.toList)
      description := joined "\n" (before.toList ++ a.description.toList)
      examples := OneOrMany.ofList? (distinctTexts (listed a.examples))
      defaultValue := (joined "\n" (a.defaultValue.map defaultText).toList).map .string
      see := OneOrMany.ofList? (distinctTexts (listed a.see)) } := by
  have hnone : listed none = [] := rfl
  have htexts : [{ description := before }, { title := given }, a].filterMap Annotations.description =
      before.toList ++ a.description.toList := by
    cases before <;> cases hd : a.description <;> simp [hd]
  have htitles : [{ description := before }, { title := given }, a].filterMap Annotations.title =
      given.toList ++ a.title.toList := by
    cases given <;> cases ht : a.title <;> simp [ht]
  have hvalues : [{ description := before }, { title := given }, a].filterMap
      (fun b : Annotations => b.defaultValue.map defaultText) = (a.defaultValue.map defaultText).toList := by
    cases hv : a.defaultValue <;> simp [hv]
  rw [merge, htexts, htitles, hvalues]
  simp only [List.flatMap_cons, List.flatMap_nil, List.append_nil, hnone, List.nil_append]

section

variable {a : Annotations} {inferred : Option String} (h : a.Steady inferred)
include h

/-- What a comment says, merged with the title of its place. -/
theorem merge_comment {before description : Option String}
    (hdesc : joined "\n" (before.toList ++ description.toList) = a.description) (title given : Option String) :
    merge [{ description := before }, { title := given }, { a with title, description }] =
      { a with title := joined ", " (given.toList ++ title.toList) } := by
  have hdefault : (joined "\n" (a.defaultValue.map defaultText).toList).map Json.string = a.defaultValue := by
    cases hv : a.defaultValue with
    | none => rfl
    | some v =>
      obtain ⟨s, rfl, hs⟩ := h.default v hv
      exact congrArg (Option.map Json.string) (joined_tight "\n" hs.nonempty hs.tight)
  have hexamples : OneOrMany.ofList? (distinctTexts (listed a.examples)) = a.examples := by
    have hproper := fun list hl => (h.examples list hl).1
    rw [distinctTexts_of_nodup (nodup_listed hproper) fun s hs => (DocComment.mem_examples h s hs).nonempty,
      DocComment.ofList?_listed hproper]
  have hsee : OneOrMany.ofList? (distinctTexts (listed a.see)) = a.see := by
    have hproper := fun list hl => (h.see list hl).1
    rw [distinctTexts_of_nodup (nodup_listed hproper) fun s hs => (DocComment.mem_see h s hs).nonempty,
      DocComment.ofList?_listed hproper]
  rw [merge_parts]
  simp only [hdesc, hdefault, hexamples, hsee]

/-- Annotations that say nothing, but for a title. -/
theorem eq_of_blocks_nil (hb : DocComment.blocks a inferred = []) : a = { title := a.title } := by
  simp only [DocComment.blocks, DocComment.tagsOf, List.append_eq_nil_iff, List.map_eq_nil_iff,
    Option.toList_eq_nil_iff, Option.map_eq_none_iff] at hb
  obtain ⟨hdesc, ⟨⟨-, hexamples⟩, hdefault⟩, hsee⟩ := hb
  have he : a.examples = none := by
    rw [← DocComment.ofList?_listed fun list hl => (h.examples list hl).1, hexamples]
    rfl
  have hs : a.see = none := by
    rw [← DocComment.ofList?_listed fun list hl => (h.see list hl).1, hsee]
    rfl
  obtain ⟨title, description, examples, defaultValue, see⟩ := a
  subst hdesc he hdefault hs
  rfl

/-- Such annotations are read back from their comment, but for the title. -/
theorem Steady.read (path : Path) :
    ∃ title, DocComment.read (DocComment.render a inferred) path = { a with title } := by
  rw [DocComment.render_eq (DocComment.enclosed_of_steady h)]
  split
  · next hb => exact ⟨path.title?, congrArg (fun b => { b with title := path.title? }) (eq_of_blocks_nil h hb).symm⟩
  · next hb =>
    obtain ⟨before, description, hparse, hjoined⟩ := DocComment.parse_comment h hb
    rw [DocComment.read, hparse]
    exact ⟨_, merge_comment h hjoined _ _⟩

end

/-- A title that is left out is the one that the place gives. -/
theorem toList_shownTitle (a : Annotations) (inferred : Option String) :
    (if (DocComment.shownTitle a inferred).isSome then none else inferred).toList ++
      (DocComment.shownTitle a inferred).toList = (a.title.or inferred).toList := by
  unfold DocComment.shownTitle
  by_cases heq : a.title = inferred
  · cases inferred <;> simp [heq]
  · cases ht : a.title with
    | none => simp
    | some title => simp [ht ▸ heq]

/-- The title is read back; where there is none, the one that the place gives stands in its place. -/
theorem Steady.title_read {a : Annotations} {path : Path} (h : a.Steady path.title?)
    (ht : ∀ t ∈ a.title.or path.title?, t.toList ≠ [] ∧ Tight t.toList) :
    (DocComment.read (DocComment.render a path.title?) path).title = a.title.or path.title? := by
  have hjoined : joined ", " (a.title.or path.title?).toList = a.title.or path.title? := by
    cases hor : a.title.or path.title? with
    | none => rfl
    | some t => exact joined_tight ", " (ht t hor).1 (ht t hor).2
  rw [DocComment.render_eq (DocComment.enclosed_of_steady h)]
  split
  · next hb =>
    -- Nothing is written, so that a title of its own is the one that the place gives.
    have hshown : DocComment.shownTitle a path.title? = none := by
      simp only [DocComment.blocks, DocComment.tagsOf, List.append_eq_nil_iff, List.map_eq_nil_iff,
        Option.toList_eq_nil_iff] at hb
      exact hb.2.1.1.1
    change path.title? = a.title.or path.title?
    unfold DocComment.shownTitle at hshown
    split at hshown
    · next heq => simp [heq]
    · simp [hshown]
  · next hb =>
    obtain ⟨before, description, hparse, hdesc⟩ := DocComment.parse_comment h hb
    rw [DocComment.read, hparse]
    refine (congrArg Annotations.title (merge_comment h hdesc _ _)).trans ?_
    dsimp only
    rw [toList_shownTitle, hjoined]

/-- Such annotations are read back from their comment, with the title that the place gives if they have none of their
own. -/
theorem Steady.read_back {a : Annotations} {path : Path} (h : a.Steady path.title?)
    (ht : ∀ t ∈ a.title.or path.title?, t.toList ≠ [] ∧ Tight t.toList) :
    DocComment.read (DocComment.render a path.title?) path = { a with title := a.title.or path.title? } := by
  obtain ⟨title, hread⟩ := h.read path
  have htitle : title = a.title.or path.title? := by rw [← h.title_read ht, hread]
  rw [hread, htitle]

/-- Texts that a comment keeps, and that are no tags. -/
theorem Canonical.steady {a : Annotations} (h : a.Canonical) (inferred : Option String) : a.Steady inferred where
  description s hs := by
    have hs := (h.description s hs).1
    exact ⟨hs.held, DocComment.steady_of_noTag hs.held hs.noTag⟩
  star s hsections _ := by
    rcases DocComment.head?_of_mem_sections (hsections ▸ List.mem_singleton_self s) with ⟨d, hd, rfl⟩ | hat
    · exact (h.description d hd).2
    · simp [hat]
  title s hs := by
    obtain ⟨hc, hl⟩ := h.title s (DocComment.mem_shownTitle hs)
    exact ⟨hc.held, hl⟩
  examples texts ht := by
    obtain ⟨hproper, hall⟩ := h.examples texts ht
    exact ⟨hproper, fun s hs => ⟨(hall s hs).1.held, (hall s hs).2, (hall s hs).1.noTag⟩⟩
  default v hv := by
    obtain ⟨s, rfl, hc, ht, hf⟩ := h.default v hv
    exact ⟨s, rfl, hc.held, ht, hf, fun line hl => hc.noTag line (List.mem_of_mem_tail hl)⟩
  see texts ht := by
    obtain ⟨hproper, hall⟩ := h.see texts ht
    refine ⟨hproper, fun s hs => ?_⟩
    obtain ⟨hc, ht, hf⟩ := hall s hs
    exact ⟨hc.held, ht, hf, fun line hl => hc.noTag line (List.mem_of_mem_tail hl)⟩

theorem sameBody_title (a : Annotations) (title : Option String) (h : ∀ v ∈ a.defaultValue, ∃ s, v = .string s) :
    sameBody { a with title } a := by
  have hv : Json.sameOption a.defaultValue a.defaultValue := by
    cases hd : a.defaultValue with
    | none => rfl
    | some v =>
      obtain ⟨s, rfl⟩ := h v hd
      simp [Json.sameOption, Json.same]
  simp [sameBody, hv]

/-- Annotations that a comment keeps are read back from their comment, but for the title. -/
theorem Canonical.read {a : Annotations} (h : a.Canonical) (inferred : Option String) (path : Path) :
    ∃ title, DocComment.read (DocComment.render a inferred) path = { a with title } :=
  (h.steady inferred).read path

/-- The title is read back; where there is none, the one that the place gives stands in its place. -/
theorem Canonical.title_read {a : Annotations} (h : a.Canonical) (path : Path)
    (hp : a.title = none → ∀ t ∈ path.title?, t.toList ≠ [] ∧ Tight t.toList) :
    (DocComment.read (DocComment.render a path.title?) path).title = a.title.or path.title? := by
  apply (h.steady path.title?).title_read
  intro t ht
  cases hown : a.title with
  | none => exact hp hown t (by simpa [hown] using ht)
  | some title =>
    obtain rfl : title = t := by simpa [hown] using ht
    exact ⟨(h.title title hown).1.nonempty, (h.title title hown).1.tight⟩

/-- What annotations are written as a comment is read back as they were, with the title that the place gives if they
have none of their own. -/
theorem Canonical.read_render {a : Annotations} (h : a.Canonical) (path : Path)
    (hp : ∀ t ∈ path.title?, t.toList ≠ [] ∧ Tight t.toList) :
    DocComment.read (DocComment.render a path.title?) path = { a with title := a.title.or path.title? } := by
  obtain ⟨title, hread⟩ := h.read path.title? path
  have htitle : title = a.title.or path.title? := by
    rw [← h.title_read path fun _ => hp, hread]
  rw [hread, htitle]

/-- All five at once, on several lines, with an end mark inside and blank lines between. -/
theorem Canonical.read_render_recipe :
    let a : Annotations := {
      title := some "A recipe"
      description := some "What to cook.\n\n  */ is no end."
      examples := some (.many ["const r = \x7b\n  servings: 2\n\x7d", "soup()"])
      defaultValue := some (.string "none\n  yet\nat all")
      see := some (.one "https://example.com") }
    let path : Path := [.property "main", .object, .declaration "Menu"]
    a.Canonical ∧ path.title? = some "Menu.main" ∧ Tight "Menu.main".toList ∧
      DocComment.read (DocComment.render a path.title?) path = a := by
  intro a path
  have h : a.Canonical := {
    description := fun s hs => by cases hs; decide
    title := fun s hs => by cases hs; decide
    examples := fun texts ht => by cases ht; decide
    default := fun v hv => by cases hv; exact ⟨_, rfl, by decide⟩
    see := fun texts ht => by cases ht; decide }
  have hp : ∀ t ∈ path.title?, t.toList ≠ [] ∧ Tight t.toList := fun t ht => by cases ht; decide
  exact ⟨h, rfl, by decide, h.read_render path hp⟩

end Annotations

end TypeSchema
