import TypeSchema.Proofs.CommentCounts

namespace TypeSchema

namespace DocComment

/-- The lines of a description. -/
def descriptionLines (a : Annotations) : List (List Char) := (a.description.map fun s => lines s.toList).getD []

/-- What is written behind a description is read behind it. -/
theorem tells_written (a : Annotations) (inferred : Option String) :
    tells ((blocks a inferred).flatMap (· ++ [[]])) = ((tells (descriptionLines a)).1,
      (splitTags ((tagsOf a inferred).flatMap fun t => t.lines ++ [[]])).2.foldl Said.add
        (tells (descriptionLines a)).2) := by
  have hbefore : (splitTags ((tagsOf a inferred).flatMap fun t => t.lines ++ [[]])).1 = [] := by
    cases htags : tagsOf a inferred with
    | nil => rfl
    | cons t tags =>
      obtain ⟨tag, htag⟩ := Option.ne_none_iff_exists'.mp
        (mt tagOf?_eq_none.mp (not_not_intro (startsTag_of_mem_tagsOf (htags ▸ List.mem_cons_self))))
      rw [List.flatMap_cons, Tag.lines, List.cons_append, List.cons_append, splitTags, htag]
  rw [blocks, List.flatMap_append, List.flatMap_map, tells_append _ hbefore, descriptionLines]
  cases a.description with
  | none => rfl
  | some s => rw [Option.map_some, Option.toList_some, List.flatMap_singleton, tells_append_nil, Option.getD_some]

theorem words_foreign {tags : List Tag} (h : ∀ t ∈ tags, Foreign t) (said : Said) :
    (tags.foldl Said.add said).words = said.words := by
  rw [foldl_foreign h, Said.words, Said.words]

end DocComment

namespace Annotations

open DocComment

/-- Annotations that were read, and are read again from the comment that is written of them. -/
structure Recurs (a : Annotations) (inferred : Option String) : Prop extends a.Gathered inferred where
  place : ∀ t ∈ inferred, t.toList ≠ [] ∧ Tight t.toList
  again : ∀ doc, render a inferred = some doc →
    ofSaid (tells (commentLines doc.toList)).1 (tells (commentLines doc.toList)).2 inferred = a

namespace Recurs

variable {a : Annotations} {inferred : Option String} (h : a.Recurs inferred)
include h

theorem count_texts {c : Char} (hbreak : c ≠ '\n') (hspace : c ≠ ' ') (doc : String) (hdoc : render a inferred = some doc) :
    (a.texts inferred).count c ≤ (commentLines doc.toList).flatten.count c := by
  have hcount := Annotations.count_texts h.place (told_tells doc.toList).2 hbreak hspace
  rwa [h.again doc hdoc] at hcount

theorem returns {s : String} (hs : s ∈ a.description) : ¬['\r', '\n'] <:+: s.toList := by
  obtain ⟨base, pieces, hdescribed⟩ := h.description s hs
  exact not_return_of_count (h.count_texts (by decide) (by decide)) hs hdescribed.tight

theorem enclosed : a.Enclosed inferred where
  description s hs := by
    obtain ⟨base, pieces, hdescribed⟩ := h.description s hs
    exact hdescribed.held (h.returns hs)
  title := h.title
  examples s hs := (h.example_held hs).1
  default v hv := by
    obtain ⟨s, rfl, hheld, -⟩ := h.default_held hv
    exact ⟨s, rfl, hheld⟩
  see s hs := (h.see_held hs).1

theorem star {s : List Char} (hs : sections a inferred = [s]) (hbreak : '\n' ∉ s) : s.head? ≠ some '*' :=
  not_star_of_count h.enclosed (h.count_texts (by decide) (by decide)) hs hbreak

/-- What stands in the comment is what the annotations are read from. -/
theorem tells_blocks (hb : blocks a inferred ≠ []) : (tells ((blocks a inferred).flatMap (· ++ [[]]))).2.Told ∧
    ofSaid (tells ((blocks a inferred).flatMap (· ++ [[]]))).1 (tells ((blocks a inferred).flatMap (· ++ [[]]))).2 inferred =
      a := by
  have hdoc := render_eq h.enclosed
  rw [if_neg hb] at hdoc
  have hread := h.again _ hdoc
  have hsaid := (told_tells (comment (escape (joinWith ['\n'] (paragraphs (blocks a inferred)))))).2
  rw [String.toList_ofList, tells_comment h.enclosed (fun s => h.star) hb] at hread
  rw [tells_comment h.enclosed (fun s => h.star) hb] at hsaid
  exact ⟨hsaid, hread⟩

/-- The tags of the description have no meaning of their own. -/
theorem narrated {s : String} (hs : s ∈ a.description) : Narrated (lines s.toList) := by
  obtain ⟨base, pieces, hdescribed⟩ := h.description s hs
  rw [hdescribed.lines_eq (h.returns hs)]
  exact hdescribed.narrated

theorem words_description : (tells (descriptionLines a)).2.words = [] := by
  rw [descriptionLines]
  cases hd : a.description with
  | none => rfl
  | some s =>
    have hforeign := (h.narrated hd).splitTags.2.2
    exact words_foreign (fun t ht => (hforeign t ht).1) {}

/-- No line of a text behind a tag starts another tag: the at sign would be in no text. -/
theorem noTag : ∀ t ∈ tagsOf a inferred, ∀ l ∈ t.more, ¬StartsTag l := by
  by_cases hb : blocks a inferred = []
  · have htags : tagsOf a inferred = [] := by
      rw [blocks, List.append_eq_nil_iff, List.map_eq_nil_iff] at hb
      exact hb.2
    simp [htags]
  refine noTag_of_length (fun t => startsTag_of_mem_tagsOf) ?_
  obtain ⟨hsaid, hread⟩ := h.tells_blocks hb
  rw [tells_written] at hsaid hread
  dsimp only at hsaid hread
  have hwords := count_words hsaid h.place (tells (descriptionLines a)).1 (show '@' ≠ '\n' by decide)
  rw [hread] at hwords
  obtain ⟨hfold, -⟩ := Said.count_foldl (splitTags ((tagsOf a inferred).flatMap fun t => t.lines ++ [[]])).2
    (tells (descriptionLines a)).2 (show '@' ≠ '\n' by decide) (by decide)
  have hparts := count_splitTags ((tagsOf a inferred).flatMap fun t => t.lines ++ [[]]) '@'
  have hwritten := count_tagsOf h.enclosed
  have hnames := count_wordsOf (splitTags ((tagsOf a inferred).flatMap fun t => t.lines ++ [[]])).2
  rw [h.words_description, List.count_nil] at hfold
  omega

theorem examples_noTag {s : String} (hs : s ∈ listed a.examples) : ∀ line ∈ lines s.toList, ¬StartsTag line := by
  intro line hline hstart
  have hmem : blockTag "example" s ∈ tagsOf a inferred := by
    simp only [tagsOf, List.mem_append, List.mem_map]
    exact .inl (.inl (.inr ⟨s, hs, rfl⟩))
  refine h.noTag _ hmem ("    ".toList ++ line) (List.mem_map_of_mem hline) ?_
  rwa [StartsTag, trimStart_blank (blank_of_all (by decide))]

theorem default_noTag {s : String} (hs : a.defaultValue = some (.string s)) :
    ∀ line ∈ (lines s.toList).tail, ¬StartsTag line := by
  have hmem : lineTag "default" s ∈ tagsOf a inferred := by
    simp only [tagsOf, List.mem_append, List.mem_map]
    exact .inl (.inr ⟨s, by simp [hs, defaultText], rfl⟩)
  exact h.noTag _ hmem

theorem below {s : String} (hs : s ∈ listed a.examples) : Below s := by
  obtain ⟨hheld, hends⟩ := h.example_held hs
  exact ⟨hheld, hends, h.examples_noTag hs⟩

theorem tagsOf_proper : ∀ t ∈ tagsOf a inferred, t.Proper := by
  have htags := h.noTag
  intro t ht
  have hmore := htags t ht
  simp only [tagsOf, List.mem_append, List.mem_map, Option.mem_toList, Option.map_eq_some_iff] at ht
  rcases ht with ((⟨s, hs, rfl⟩ | ⟨s, hs, rfl⟩) | ⟨_, ⟨v, hv, rfl⟩, rfl⟩) | ⟨s, hs, rfl⟩
  · obtain ⟨hheld, hbreak⟩ := h.title s hs
    exact proper_lineTag isTagName_title hheld (behind_one hheld hbreak).noTrailing hmore
  · exact proper_blockTag isTagName_example (h.examples_noTag hs)
  · obtain ⟨s, rfl, hheld, hends⟩ := h.default_held hv
    exact proper_lineTag isTagName_default hheld hends hmore
  · obtain ⟨hheld, hends⟩ := h.see_held hs
    exact proper_lineTag isTagName_see hheld hends hmore

/-- What is read again: the description from its lines, and each text from its tag. -/
theorem again_texts (hb : blocks a inferred ≠ []) : ofSaid (tells (descriptionLines a)).1 {
    title := shownTitle a inferred
    descriptions := (tells (descriptionLines a)).2.descriptions
    examples := listed a.examples
    defaults := (a.defaultValue.map fun v => lineText (defaultText v)).toList
    see := (listed a.see).map fun s => String.ofList (lineText s) } inferred = a := by
  have hdescription : (tells (descriptionLines a)).2 = { descriptions := (tells (descriptionLines a)).2.descriptions } := by
    rw [descriptionLines]
    cases hd : a.description with
    | none => rfl
    | some s => rw [Option.map_some, Option.getD_some, (h.narrated hd).tells]
  obtain ⟨-, hread⟩ := h.tells_blocks hb
  have hsplit := splitTags_tags h.tagsOf_proper
  rw [tells_written, hsplit, foldl_closed, hdescription,
    foldl_tagsOf h.enclosed (fun s hs => h.below hs)] at hread
  exact hread

theorem default_flush {s : String} (hs : a.defaultValue = some (.string s)) : Flush s := by
  obtain ⟨s', heq, hheld, hends⟩ := h.default_held hs
  obtain rfl : s = s' := Json.string.inj heq
  have hb : blocks a inferred ≠ [] := by simp [blocks, tagsOf, hs]
  obtain ⟨said, hread, hdefaults⟩ : ∃ said, ofSaid (tells (descriptionLines a)).1 said inferred = a ∧
      said.defaults = [lineText s] := ⟨_, h.again_texts hb, by simp [hs, defaultText]⟩
  have hsub := default_ofSaid (tells (descriptionLines a)).1 said inferred
  rw [hread, hs, hdefaults, joinWith_singleton] at hsub
  have hwhole : s.toList.Sublist (lineText s) := by simpa [defaultText] using hsub
  exact flush_of_lineText hheld hends ((lineText_sublist hheld).antisymm hwhole)

theorem see_flush {s : String} (hs : s ∈ listed a.see) : Flush s := by
  obtain ⟨hheld, hends⟩ := h.see_held hs
  have hb : blocks a inferred ≠ [] := by simp [blocks, tagsOf, List.ne_nil_of_mem hs]
  have hread := congrArg Annotations.see (h.again_texts hb)
  rw [ofSaid_see] at hread
  have hread := congrArg listed hread
  rw [listed_ofList?] at hread
  have hall := (distinctTexts_sublist ((listed a.see).map fun s => String.ofList (lineText s))).eq_of_length
    (by rw [hread, List.length_map])
  have hid : ((listed a.see).map fun s => String.ofList (lineText s)) = (listed a.see).map id :=
    (hall.symm.trans hread).trans (List.map_id _).symm
  have hsame := List.map_inj_left.mp hid s hs
  exact flush_of_lineText hheld hends (by rw [← String.toList_ofList (l := lineText s), hsame, id])

/-- The later lines of a tag in the description are not all indented: they would lose their indentation. -/
theorem tags_flat {s : String} (hs : s ∈ a.description) :
    ∀ t ∈ (splitTags (lines s.toList)).2, commonIndentation t.more = 0 := by
  intro t ht
  have hb : blocks a inferred ≠ [] := by
    have hd : a.description = some s := hs
    simp [blocks, hd]
  have hheld := h.enclosed.description s hs
  have hn := h.narrated hs
  have hlines : descriptionLines a = lines s.toList := by rw [descriptionLines, show a.description = some s from hs]; rfl
  obtain ⟨said, hread, hdescriptions⟩ : ∃ said,
      ofSaid (text? (trim (joinWith ['\n'] (splitTags (lines s.toList)).1))) said inferred = a ∧
        said.descriptions = (splitTags (lines s.toList)).2.map Tag.told := by
    have hread := h.again_texts hb
    rw [hlines, hn.tells] at hread
    exact ⟨_, hread, rfl⟩
  have hsub := description_ofSaid _ said inferred ((congrArg description hread).trans hs)
  obtain ⟨hall, hbefore, htags⟩ := hn.splitTags
  have hjoin := hheld.joinWith_lines
  rw [← hall] at hjoin
  rw [hdescriptions] at hsub
  generalize (splitTags (lines s.toList)).1 = before at *
  generalize (splitTags (lines s.toList)).2 = tags at *
  have hrest : tags.flatMap Tag.lines ≠ [] := by
    obtain ⟨u, more, rfl⟩ := List.exists_cons_of_ne_nil (List.ne_nil_of_mem ht)
    simp [Tag.lines]
  -- nothing is lost of the tags as a whole
  have hlength : (joinWith ['\n'] (tags.map fun t => joinWith ['\n'] t.lines)).length ≤
      (joinWith ['\n'] (tags.map Tag.told)).length := by
    rw [joinWith_tags]
    by_cases hnil : before = []
    · have hnone : text? (trim (joinWith ['\n'] [])) = none := rfl
      rw [hnil, List.nil_append] at hjoin
      rw [hnil, hnone, Option.toList_none, List.map_nil, List.nil_append, joinWith_singleton, ← hjoin] at hsub
      exact hsub.length_le
    · rw [text?_before hnil hbefore (hjoin ▸ hheld.tight), ← hjoin, joinWith_append _ hnil hrest] at hsub
      have hle := hsub.length_le
      simp only [Option.toList_some, List.map_singleton, String.toList_ofList, List.singleton_append, joinWith,
        List.length_append] at hle
      omega
  have htold : List.Forall₂ (List.Sublist ·) (tags.map Tag.told) (tags.map fun t => joinWith ['\n'] t.lines) := by
    rw [List.forall₂_map_left_iff, List.forall₂_map_right_iff, List.forall₂_same]
    intro u hu
    rw [(htags u hu).1.joinWith_lines, Tag.told]
    exact ((tagText_sublist u.first u.more).cons_cons ' ').append_left _
  have hsame := (joinWith_forall₂ ['\n'] htold).2 hlength
  have htext := List.map_inj_left.mp hsame t ht
  rw [(htags t ht).1.joinWith_lines, Tag.told] at htext
  exact commonIndentation_of_tagText (List.cons.inj (List.append_cancel_left htext)).2

theorem settled : a.Settled inferred where
  returns _ hs := h.returns hs
  tags _ hs := h.tags_flat hs
  star _ hs hbreak := h.star hs hbreak
  examples _ hs := h.examples_noTag hs
  default _ hs := ⟨h.default_flush hs, h.default_noTag hs⟩
  see _ hs := h.see_flush hs

end Recurs

end Annotations

namespace DocComment

/-- What is read from a comment is read from the comment that is written of it in exactly these cases: nothing in it is
read otherwise there. -/
theorem read_render_read (raw : String) (path : Path) (hpath : ∀ t ∈ path.title?, t.toList ≠ [] ∧ Tight t.toList) :
    read (render (read (some raw) path) path.title?) path = read (some raw) path ↔
      (read (some raw) path).Settled path.title? := by
  refine ⟨fun hread => ?_, read_render_of_settled raw path hpath⟩
  obtain ⟨hbefore, hsaid⟩ := told_tells raw.toList
  have hgathered := Annotations.gathered_ofSaid hsaid hbefore hpath
  rw [← read_some] at hgathered
  refine Annotations.Recurs.settled ⟨hgathered, hpath, fun doc hdoc => ?_⟩
  rw [hdoc, read_some doc] at hread
  exact hread

/-- A list, a tag without a meaning of its own and a default of more lines are read again as they are; a list that is all
of a comment is not. -/
theorem read_render_read_soups :
    let soups := "/**\n * Soups:\n * - leek\n * @since 1\n *   May\n * only\n * @default none\n *  yet\n * at all\n */"
    let leek := "/**\n * * leek\n */"
    let path : Path := [.declaration "Menu"]
    (∀ t ∈ path.title?, t.toList ≠ [] ∧ Tight t.toList) ∧
      (read (some soups) path).description = some "Soups:\n- leek\n@since 1\n  May\nonly" ∧
      read (render (read (some soups) path) path.title?) path = read (some soups) path ∧
      (read (some leek) path).description = some "* leek" ∧
      read (render (read (some leek) path) path.title?) path ≠ read (some leek) path := by
  intro soups leek path
  have hsoups : (read (some soups) path).description = some "Soups:\n- leek\n@since 1\n  May\nonly" ∧
      (read (some soups) path).examples = none ∧ (read (some soups) path).see = none ∧
      (read (some soups) path).defaultValue.map Annotations.defaultText = some "none\n yet\nat all" := by decide +kernel
  have hsettled : (read (some soups) path).Settled path.title? := by
    generalize read (some soups) path = a at hsoups
    obtain ⟨hdescription, hexamples, hsee, hdefault⟩ := hsoups
    refine ⟨?_, ?_, fun s hs => ?_, ?_, fun s hs => ?_, ?_⟩
    · rw [hdescription]; decide +kernel
    · rw [hdescription]; decide +kernel
    · obtain ⟨v, hv, -⟩ := Option.map_eq_some_iff.mp hdefault
      have hlength := congrArg List.length hs
      simp only [sections, hdescription, hv, Option.map_some, Option.toList_some, List.length_append, List.length_singleton]
        at hlength
      omega
    · rw [hexamples]; decide
    · obtain rfl : s = "none\n yet\nat all" := by simpa [hs, Annotations.defaultText] using hdefault
      decide +kernel
    · rw [hsee]; decide
  have hleek : (read (some leek) path).description = some "* leek" ∧
      sections (read (some leek) path) path.title? = ["* leek".toList] := by decide +kernel
  have hstar : ¬(read (some leek) path).Settled path.title? := fun h => h.star _ hleek.2 (by decide) rfl
  have hpath : ∀ t ∈ path.title?, t.toList ≠ [] ∧ Tight t.toList := fun t ht => by cases ht; decide
  exact ⟨hpath, hsoups.1, (read_render_read soups path hpath).mpr hsettled, hleek.1,
    mt (read_render_read leek path hpath).mp hstar⟩

end DocComment

end TypeSchema
