import Mathlib.Data.List.Flatten
import TypeSchema.Proofs.Rereading

namespace TypeSchema

/-- Lines that are parts of other lines make a part of their text, and the whole only if they are these lines. -/
theorem joinWith_forall₂ (separator : List Char) {ls ms : List (List Char)} (h : List.Forall₂ (List.Sublist ·) ls ms) :
    (joinWith separator ls).Sublist (joinWith separator ms) ∧
      ((joinWith separator ms).length ≤ (joinWith separator ls).length → ls = ms) := by
  induction h with
  | nil => exact ⟨List.Sublist.refl _, fun _ => rfl⟩
  | @cons l m ls ms hlm h ih =>
    obtain ⟨hsub, heq⟩ := ih
    by_cases hms : ms = []
    · subst hms
      cases h
      exact ⟨hlm, fun hlen => by rw [hlm.eq_of_length_le hlen]⟩
    · have hls : ls ≠ [] := fun hnil => hms (by subst hnil; cases h; rfl)
      rw [joinWith_cons _ _ hls, joinWith_cons _ _ hms]
      refine ⟨(hlm.append_right separator).append hsub, fun hlen => ?_⟩
      have hfirst := hlm.length_le
      have hrest := hsub.length_le
      simp only [List.length_append] at hlen
      rw [hlm.eq_of_length_le (by omega), heq (by omega)]

theorem sublist_joinWith_cons (separator l : List Char) (ls : List (List Char)) :
    (joinWith separator ls).Sublist (joinWith separator (l :: ls)) := by
  by_cases hls : ls = []
  · simp [hls]
  · rw [joinWith_cons _ _ hls]
    exact List.sublist_append_right _ _

theorem joinWith_sublist (separator : List Char) {ls ms : List (List Char)} (h : ls.Sublist ms) :
    (joinWith separator ls).Sublist (joinWith separator ms) := by
  induction h with
  | slnil => exact List.Sublist.refl _
  | @cons ls ms m _ ih => exact ih.trans (sublist_joinWith_cons separator m ms)
  | @cons_cons ls ms l h ih =>
    by_cases hls : ls = []
    · by_cases hms : ms = []
      · rw [hls, hms]
      · rw [hls, joinWith_singleton, joinWith_cons _ _ hms, List.append_assoc]
        exact List.sublist_append_left _ _
    · have hms : ms ≠ [] := fun hnil => hls (List.sublist_nil.mp (hnil ▸ h))
      rw [joinWith_cons _ _ hls, joinWith_cons _ _ hms]
      exact ih.append_left _

theorem Annotations.joined_sublist {separator s : String} {texts : List String} (h : joined separator texts = some s) :
    s.toList.Sublist (joinWith separator.toList (texts.map String.toList)) := by
  rw [joined] at h
  split at h
  · cases h
  · obtain rfl := Option.some.inj h
    rw [trimmed, joinTexts, String.toList_ofList, String.toList_ofList]
    exact (trim_isInfix _).sublist.trans (joinWith_sublist _ ((distinctTexts_sublist texts).map _))

namespace DocComment

theorem dedent_sublist (lines : List (List Char)) (line : List Char) : (dedent lines line).Sublist line := by
  refine (trimEnd_isPrefix _).sublist.trans ?_
  cases hdrop : dropBytes? (commonIndentation lines) line with
  | none => exact List.nil_sublist _
  | some rest =>
    obtain ⟨before, rfl, -⟩ := dropBytes?_eq_some hdrop
    exact List.sublist_append_right _ _

theorem forall₂_dedent (first : List Char) (more : List (List Char)) :
    List.Forall₂ (List.Sublist ·) (first :: more.map (dedent more)) (first :: more) :=
  .cons (List.Sublist.refl _) (List.forall₂_map_left_iff.mpr (List.forall₂_same.mpr fun l _ => dedent_sublist more l))

/-- The text of a tag is part of its lines. -/
theorem tagText_sublist (first : List Char) (more : List (List Char)) :
    (tagText first more).Sublist (joinWith ['\n'] (first :: more)) :=
  (trim_isInfix _).sublist.trans (joinWith_forall₂ _ (forall₂_dedent first more)).1

/-- It is all of them only if not all later lines are indented. -/
theorem commonIndentation_of_tagText {first : List Char} {more : List (List Char)}
    (h : tagText first more = joinWith ['\n'] (first :: more)) : commonIndentation more = 0 := by
  have hlen := (trim_isInfix (joinWith ['\n'] (first :: more.map (dedent more)))).length_le
  have hsame := (joinWith_forall₂ ['\n'] (forall₂_dedent first more)).2 (h ▸ hlen)
  obtain ⟨-, hmap⟩ := List.cons.inj hsame
  by_contra hne
  cases hmin : ((more.filter fun line => !(trim line).isEmpty).map indentation).min? with
  | none => exact hne (by rw [commonIndentation, hmin]; rfl)
  | some n =>
    obtain ⟨l, hl, -⟩ := List.mem_map.mp (List.min?_mem hmin)
    obtain ⟨hl, hblank⟩ := List.mem_filter.mp hl
    have hkept : dedent more l = l := by
      have hid : more.map (dedent more) = more.map id := hmap.trans (List.map_id more).symm
      exact List.map_inj_left.mp hid l hl
    rw [dedent] at hkept
    cases hdrop : dropBytes? (commonIndentation more) l with
    | none =>
      rw [hdrop] at hkept
      rw [← hkept] at hblank
      exact absurd hblank (by decide)
    | some rest =>
      obtain ⟨before, rfl, hsize⟩ := dropBytes?_eq_some hdrop
      have hbefore : before ≠ [] := by
        rintro rfl
        exact hne hsize.symm
      have hpos := List.length_pos_iff.mpr hbefore
      have hle := (trimEnd_isPrefix rest).length_le
      have hlength := congrArg List.length hkept
      rw [hdrop, Option.getD_some, List.length_append] at hlength
      omega

theorem lineText_sublist {s : String} (h : Held s) : (lineText s).Sublist s.toList := by
  obtain ⟨first, more, hl⟩ := h.exists_lines
  have hsub := tagText_sublist first more
  rw [← hl, h.joinWith_lines] at hsub
  rw [lineText, hl]
  exact hsub

/-- Lines without a common indentation are blank, or one of them is not indented. -/
theorem exists_flush {ls : List (List Char)} (h : commonIndentation ls = 0) {l : List Char} (hl : l ∈ ls)
    (hne : trim l ≠ []) : ∃ line ∈ ls, ∃ c ∈ line.head?, isBlank c = false := by
  have hmem : indentation l ∈ (ls.filter fun line => !(trim line).isEmpty).map indentation :=
    List.mem_map_of_mem (List.mem_filter.mpr ⟨hl, by simpa using hne⟩)
  obtain ⟨least, hleast⟩ := Option.isSome_iff_exists.mp (List.isSome_min?_of_mem hmem)
  rw [commonIndentation, hleast, Option.getD_some] at h
  obtain ⟨m, hm, hindent⟩ := List.mem_map.mp (List.min?_mem hleast)
  obtain ⟨hm, hblank⟩ := List.mem_filter.mp hm
  rcases m with _ | ⟨c, rest⟩
  · exact absurd hblank (by decide)
  · refine ⟨_, hm, c, rfl, ?_⟩
    rw [← Bool.not_eq_true]
    intro hc
    rw [indentation, List.takeWhile_cons_of_pos hc, byteSize] at hindent
    have hpos := c.utf8Size_pos
    omega

theorem flush_of_lineText {s : String} (h : Held s) (ht : NoTrailing s) (heq : lineText s = s.toList) : Flush s := by
  obtain ⟨first, more, hl⟩ := h.exists_lines
  have hindent : commonIndentation more = 0 := by
    apply commonIndentation_of_tagText
    rw [← hl, h.joinWith_lines, ← heq, lineText, hl]
    rfl
  intro hmore
  rw [hl, List.tail_cons] at hmore ⊢
  obtain ⟨l, hlast⟩ := Option.isSome_iff_exists.mp (List.getLast?_isSome.mpr hmore)
  have hmem := List.mem_of_getLast? hlast
  refine exists_flush hindent hmem fun hblank => ?_
  -- the last line is not empty, and does not end in a blank
  have hne : l ≠ [] := by
    rintro rfl
    refine h.block.getLast? ?_
    rw [hl, List.getLast?_cons, hlast]
    rfl
  have hend := ht l (by rw [hl]; exact List.mem_cons_of_mem _ hmem) _ (List.getLast?_eq_some_getLast hne)
  have hall := List.dropWhile_eq_nil_iff.mp (trimStart_eq_nil_of_trim hblank) _ (List.getLast_mem hne)
  rw [hend] at hall
  cases hall

theorem count_joinWith {c : Char} {separator : List Char} (h : c ∉ separator) (ls : List (List Char)) :
    (joinWith separator ls).count c = ls.flatten.count c := by
  induction ls with
  | nil => rfl
  | cons l ls ih =>
    by_cases hls : ls = []
    · simp [hls]
    · simp [joinWith_cons _ _ hls, List.count_eq_zero.mpr h, ih]

theorem count_map {f : List Char → List Char} {c : Char} (h : ∀ l, (f l).count c = l.count c) (ls : List (List Char)) :
    (ls.map f).flatten.count c = ls.flatten.count c := by
  induction ls with
  | nil => rfl
  | cons l ls ih => rw [List.map_cons, List.flatten_cons, List.flatten_cons, List.count_append, List.count_append, h, ih]

theorem count_map_le {α : Type} {f g : α → List Char} {c : Char} (h : ∀ x, (f x).count c ≤ (g x).count c) (xs : List α) :
    (xs.map f).flatten.count c ≤ (xs.map g).flatten.count c := by
  induction xs with
  | nil => exact le_refl _
  | cons x xs ih =>
    have hx := h x
    rw [List.map_cons, List.map_cons, List.flatten_cons, List.flatten_cons, List.count_append, List.count_append]
    omega

/-- The texts that tags say besides descriptions, as one. -/
def Said.words (said : Said) : List Char :=
  (said.title.toList ++ said.examples ++ said.see).flatMap String.toList ++ said.defaults.flatten

/-- The text of a tag is what it adds, and its name if it has no meaning of its own. -/
theorem Said.count_add (said : Said) (t : Tag) {c : Char} (hbreak : c ≠ '\n') (hspace : c ≠ ' ') :
    (said.add t).words.count c ≤ said.words.count c + (t.first :: t.more).flatten.count c ∧
    (said.add t).descriptions.flatten.count c + (said.add t).words.count c ≤
      said.descriptions.flatten.count c + said.words.count c +
        (('@' :: t.name).count c + (t.first :: t.more).flatten.count c) := by
  have htext : (tagText t.first t.more).count c ≤ (t.first :: t.more).flatten.count c := by
    rw [← count_joinWith (show c ∉ ['\n'] by simpa using hbreak)]
    exact (tagText_sublist t.first t.more).count_le c
  rw [Said.add]
  generalize tagText t.first t.more = text at htext
  generalize (t.first :: t.more).flatten.count c = n at htext
  dsimp only
  split
  · omega
  · split
    · -- the first line is a title, the others are description
      have hparts : (text.takeWhile (· != '\n')).count c + (text.dropWhile (· != '\n')).count c = text.count c := by
        rw [← List.count_append, List.takeWhile_append_dropWhile]
      have htitle := (trim_isInfix (text.takeWhile (· != '\n'))).sublist.count_le c
      have hrest := ((trim_isInfix ((text.dropWhile (· != '\n')).drop 1)).sublist.trans (List.drop_sublist 1 _)).count_le c
      have hown : ((said.title.or (some (String.ofList (trim (text.takeWhile (· != '\n')))))).toList.flatMap
          String.toList).count c ≤
            (said.title.toList.flatMap String.toList).count c + (trim (text.takeWhile (· != '\n'))).count c := by
        cases said.title <;> simp
      simp only [Said.words, List.flatMap_append, List.count_append]
      split
      · omega
      · rw [List.flatten_append, List.flatten_singleton, List.count_append]
        omega
    · split
      · simp only [Said.words, List.flatMap_append, List.flatMap_cons, List.flatMap_nil, List.count_append,
          String.toList_ofList, List.append_nil]
        omega
      · split
        · simp only [Said.words, List.flatten_append, List.flatten_cons, List.flatten_nil, List.count_append,
            List.append_nil]
          omega
        · split
          · simp only [Said.words, List.flatMap_append, List.flatMap_cons, List.flatMap_nil, List.count_append,
              String.toList_ofList, List.append_nil]
            omega
          · have hpiece : ('@' :: t.name ++ ' ' :: text).count c = ('@' :: t.name).count c + text.count c := by
              rw [List.count_append, List.count_cons_of_ne hspace.symm]
            simp only [Said.words, List.flatten_append, List.flatten_cons, List.flatten_nil, List.count_append, hpiece,
              List.append_nil]
            omega

/-- The texts of tags, as one. -/
def textsOf (tags : List Tag) : List Char := tags.flatMap fun t => (t.first :: t.more).flatten

/-- The names and the texts of tags, as one. -/
def wordsOf (tags : List Tag) : List Char := tags.flatMap fun t => '@' :: t.name ++ (t.first :: t.more).flatten

theorem Said.count_foldl (tags : List Tag) (said : Said) {c : Char} (hbreak : c ≠ '\n') (hspace : c ≠ ' ') :
    (tags.foldl Said.add said).words.count c ≤ said.words.count c + (textsOf tags).count c ∧
    (tags.foldl Said.add said).descriptions.flatten.count c + (tags.foldl Said.add said).words.count c ≤
      said.descriptions.flatten.count c + said.words.count c + (wordsOf tags).count c := by
  induction tags generalizing said with
  | nil => simp
  | cons t tags ih =>
    obtain ⟨hwords, hall⟩ := said.count_add t hbreak hspace
    obtain ⟨hwords', hall'⟩ := ih (said.add t)
    rw [textsOf] at hwords' ⊢
    rw [wordsOf] at hall' ⊢
    simp only [List.foldl_cons, List.flatMap_cons, List.count_append]
    omega

theorem count_tagOf? {line name first : List Char} (h : tagOf? line = some (name, first)) (c : Char) :
    ('@' :: name).count c + first.count c ≤ line.count c := by
  unfold tagOf? at h
  split at h
  · next d rest heq =>
    split at h
    · obtain ⟨rfl, rfl⟩ := Prod.mk.inj (Option.some.inj h)
      have hline := (trimStart_isSuffix line).sublist.count_le c
      have hfirst := (trim_isInfix ((d :: rest).dropWhile (!isBlank ·))).sublist.count_le c
      have hword : ((d :: rest).takeWhile (!isBlank ·)).count c + ((d :: rest).dropWhile (!isBlank ·)).count c =
          (d :: rest).count c := by
        rw [← List.count_append, List.takeWhile_append_dropWhile]
      rw [heq] at hline
      rw [List.count_cons] at hline ⊢
      omega
    · cases h
  · cases h

/-- Nothing is in two parts of lines. -/
theorem count_splitTags (ls : List (List Char)) (c : Char) :
    (splitTags ls).1.flatten.count c + (wordsOf (splitTags ls).2).count c ≤ ls.flatten.count c := by
  induction ls with
  | nil => simp [splitTags, wordsOf]
  | cons l ls ih =>
    rw [splitTags, List.flatten_cons, List.count_append]
    cases htag : tagOf? l with
    | none =>
      dsimp only
      rw [List.flatten_cons, List.count_append]
      omega
    | some tag =>
      have hline := count_tagOf? htag c
      rw [wordsOf] at ih
      dsimp only
      rw [wordsOf, List.flatMap_cons, List.count_append, List.count_append]
      dsimp only
      rw [List.flatten_cons, List.count_append, List.flatten_nil, List.count_nil]
      omega

end DocComment

namespace Annotations

open DocComment

/-- The texts of annotations besides the description, as one. A title that the place gives is none of them. -/
def words (a : Annotations) (inferred : Option String) : List Char :=
  ((shownTitle a inferred).toList ++ listed a.examples ++ listed a.see).flatMap String.toList ++
    (a.defaultValue.map defaultText).toList.flatMap String.toList

variable {said : Said} (hsaid : said.Told) {inferred : Option String}
  (hinferred : ∀ t ∈ inferred, t.toList ≠ [] ∧ Tight t.toList) {c : Char}

theorem flatMap_distinctTexts (texts : List String) :
    ((distinctTexts texts).flatMap String.toList).Sublist (texts.flatMap String.toList) := by
  rw [List.flatMap_def, List.flatMap_def]
  exact ((distinctTexts_sublist texts).map String.toList).flatten

theorem default_ofSaid (before : Option String) (said : Said) (inferred : Option String) :
    (((ofSaid before said inferred).defaultValue.map defaultText).toList.flatMap String.toList).Sublist
      (joinWith ['\n'] said.defaults) := by
  have htext : ∀ text : Option String, (text.map Json.string).map defaultText = text := by
    rintro (_ | s) <;> rfl
  rw [ofSaid_defaultValue, htext]
  cases hjoined : joined "\n" (said.annotations.defaultValue.map defaultText).toList with
  | none => exact List.nil_sublist _
  | some s =>
    have hs := joined_sublist hjoined
    rw [Option.toList_some, List.flatMap_singleton]
    by_cases hne : said.defaults = []
    · simpa [Said.annotations, hne] using hs
    · simpa [Said.annotations, hne, defaultText] using hs

theorem description_ofSaid (before : Option String) (said : Said) (inferred : Option String) {s : String}
    (h : (ofSaid before said inferred).description = some s) :
    s.toList.Sublist (joinWith ['\n'] (before.toList.map String.toList ++ [joinWith ['\n'] said.descriptions])) := by
  rw [ofSaid_description] at h
  refine (joined_sublist h).trans (joinWith_sublist _ ?_)
  rw [List.map_append]
  refine List.Sublist.append_left ?_ _
  by_cases hne : said.descriptions = []
  · simp [Said.annotations, hne]
  · simp [Said.annotations, hne]

include hsaid hinferred in
/-- Annotations hold nothing that was not said. -/
theorem count_words (before : Option String) (hbreak : c ≠ '\n') :
    ((ofSaid before said inferred).words inferred).count c ≤ said.words.count c := by
  have htitle : ((shownTitle (ofSaid before said inferred) inferred).toList.flatMap String.toList).Sublist
      (said.title.toList.flatMap String.toList) := by
    cases hshown : shownTitle (ofSaid before said inferred) inferred with
    | none => exact List.nil_sublist _
    | some t => rw [shownTitle_ofSaid before hsaid hinferred hshown]
  have htitle := htitle.count_le c
  have hexamples := (flatMap_distinctTexts said.examples).count_le c
  have hdefault := (default_ofSaid before said inferred).count_le c
  have hsee := (flatMap_distinctTexts said.see).count_le c
  rw [count_joinWith (by simpa using hbreak)] at hdefault
  rw [words, Said.words, ofSaid_examples, ofSaid_see, listed_ofList?, listed_ofList?]
  simp only [List.flatMap_append, List.count_append]
  omega

/-- All texts of annotations as one, but for a title that the place gives. -/
def texts (a : Annotations) (inferred : Option String) : List Char :=
  a.description.toList.flatMap String.toList ++ a.words inferred

include hinferred in
/-- What is read from lines stands in them. -/
theorem count_texts {ls : List (List Char)} (hsaid : (tells ls).2.Told) (hbreak : c ≠ '\n') (hspace : c ≠ ' ') :
    ((ofSaid (tells ls).1 (tells ls).2 inferred).texts inferred).count c ≤ ls.flatten.count c := by
  have hwords := count_words hsaid hinferred (tells ls).1 hbreak
  have hparts := count_splitTags ls c
  obtain ⟨-, hall⟩ := Said.count_foldl (splitTags ls).2 {} hbreak hspace
  have hempty : (Said.descriptions {}).flatten.count c + (Said.words {}).count c = 0 := by simp [Said.words]
  rw [hempty, Nat.zero_add] at hall
  have hbefore : ((tells ls).1.toList.flatMap String.toList).count c ≤ (splitTags ls).1.flatten.count c := by
    rw [tells]
    cases htext : text? (trim (joinWith ['\n'] (splitTags ls).1)) with
    | none => simp
    | some s =>
      obtain ⟨hs, -⟩ := of_text? htext
      rw [Option.toList_some, List.flatMap_singleton, hs, ← count_joinWith (show c ∉ ['\n'] by simpa using hbreak)]
      exact (trim_isInfix _).sublist.count_le c
  have hdescription : ((ofSaid (tells ls).1 (tells ls).2 inferred).description.toList.flatMap String.toList).count c ≤
      ((tells ls).1.toList.flatMap String.toList).count c + (tells ls).2.descriptions.flatten.count c := by
    cases hd : (ofSaid (tells ls).1 (tells ls).2 inferred).description with
    | none => simp
    | some s =>
      have hs := (description_ofSaid _ _ _ hd).count_le c
      have hc : c ∉ ['\n'] := by simpa using hbreak
      rw [count_joinWith hc, List.flatten_append, List.flatten_singleton, List.count_append, count_joinWith hc] at hs
      rwa [Option.toList_some, List.flatMap_singleton, List.flatMap_def]
  have hsaid' : (tells ls).2 = (splitTags ls).2.foldl Said.add {} := rfl
  rw [hsaid'] at hwords hdescription
  rw [texts, List.count_append, hsaid']
  omega

end Annotations

/-- Lines hold what the text holds, less the carriage returns before its line feeds. -/
theorem count_linesFrom {before s : List Char} (hb : '\n' ∉ before) :
    (linesFrom before s).flatten.count '\r' ≤ (before.reverse ++ s).count '\r' ∧
      (['\r', '\n'] <:+: before.reverse ++ s →
        (linesFrom before s).flatten.count '\r' < (before.reverse ++ s).count '\r') := by
  induction s generalizing before with
  | nil =>
    have hlines : (linesFrom before []).flatten = before.reverse := by cases before <;> simp [linesFrom]
    rw [hlines, List.append_nil]
    exact ⟨le_refl _, fun hi => absurd (hi.subset (show '\n' ∈ ['\r', '\n'] by simp)) (by simpa using hb)⟩
  | cons d s ih =>
    by_cases hd : d = '\n'
    · subst hd
      obtain ⟨hle, hlt⟩ := ih (show '\n' ∉ [] by simp)
      have hline := (lineOfReversed_isPrefix before).sublist.count_le '\r'
      rw [List.reverse_nil, List.nil_append] at hle hlt
      rw [linesFrom, List.flatten_cons, List.count_append, List.count_append, List.count_cons_of_ne (by decide)]
      refine ⟨by omega, fun hi => ?_⟩
      rcases return_break (mt List.mem_reverse.mp hb) hi with hlast | hrest
      · obtain ⟨more, rfl⟩ : ∃ more, before = '\r' :: more := by
          cases before with
          | nil => simp at hlast
          | cons e more => exact ⟨more, by simp at hlast; rw [hlast]⟩
        have hlost : (lineOfReversed ('\r' :: more)).count '\r' < ('\r' :: more).reverse.count '\r' := by
          simp [lineOfReversed]
        omega
      · have := hlt hrest
        omega
    · rw [linesFrom.eq_3 _ _ _ hd]
      simpa using ih (show '\n' ∉ d :: before by simp [hb, Ne.symm hd])

theorem count_lines (s : List Char) : (lines s).flatten.count '\r' ≤ s.count '\r' ∧
    (['\r', '\n'] <:+: s → (lines s).flatten.count '\r' < s.count '\r') := by
  have hcount : _ ∧ (_ → _) := count_linesFrom (s := s) (show '\n' ∉ [] by simp)
  rwa [List.reverse_nil, List.nil_append] at hcount

namespace DocComment

theorem unescape_sublist (s : List Char) : (unescape s).Sublist s := by
  fun_induction unescape s with
  | case1 rest ih => exact (((ih.cons_cons '/').cons '\\').cons_cons '*')
  | case2 c rest hne ih => exact ih.cons_cons c
  | case3 => exact List.Sublist.refl _

theorem count_escape {c : Char} (hc : c ≠ '\\') (s : List Char) : (escape s).count c = s.count c := by
  fun_induction escape s with
  | case1 rest ih => simp [List.count_cons, ih, hc.symm]
  | case2 d rest hne ih => simp [List.count_cons, ih]
  | case3 => rfl

theorem return_escape {s : List Char} (h : ['\r', '\n'] <:+: s) : ['\r', '\n'] <:+: escape s := by
  obtain ⟨before, after, rfl⟩ := h
  refine ⟨escape before, escape after, ?_⟩
  have hsplit : before ++ ['\r', '\n'] ++ after = before ++ '\r' :: '\n' :: after := by simp
  rw [hsplit, escape_append (by decide) (by decide), escape_cons (by decide)]
  simp

theorem count_prefixed {before : List Char} {c : Char} (h : c ∉ before) (ls : List (List Char)) :
    (ls.map (before ++ ·)).flatten.count c = ls.flatten.count c :=
  count_map (fun l => by rw [List.count_append, List.count_eq_zero.mpr h, Nat.zero_add]) ls

/-- The sections of a comment hold the texts, less the carriage returns at the ends of the lines of examples. -/
theorem count_sections (a : Annotations) (inferred : Option String) :
    (sections a inferred).flatten.count '\r' ≤ (a.texts inferred).count '\r' := by
  have hexample : ∀ s : String, ("@example\n".toList ++
      joinWith ['\n'] ((lines s.toList).map ("    ".toList ++ ·))).count '\r' ≤ s.toList.count '\r' := by
    intro s
    have hname : ("@example\n".toList).count '\r' = 0 := by decide
    rw [List.count_append, hname, Nat.zero_add, count_joinWith (by decide), count_prefixed (by decide)]
    exact (count_lines s.toList).1
  have hexamples := count_map_le hexample (Annotations.listed a.examples)
  rw [← List.flatMap_def (f := String.toList)] at hexamples
  have hsee : ((Annotations.listed a.see).map fun link => "@see ".toList ++ link.toList).flatten.count '\r' =
      ((Annotations.listed a.see).flatMap String.toList).count '\r' := by
    have hmap := count_prefixed (show '\r' ∉ "@see ".toList by decide) ((Annotations.listed a.see).map String.toList)
    rwa [List.map_map, ← List.flatMap_def] at hmap
  have hdefault : (a.defaultValue.map fun value =>
      "@default ".toList ++ (Annotations.defaultText value).toList).toList.flatten.count '\r' =
        ((a.defaultValue.map Annotations.defaultText).toList.flatMap String.toList).count '\r' := by
    cases a.defaultValue <;> simp
  have hdescription : (a.description.map String.toList).toList.flatten = a.description.toList.flatMap String.toList := by
    cases a.description <;> simp
  have htitle : ("@title ".toList).count '\r' = 0 := by decide
  rw [sections, Annotations.texts, Annotations.words]
  simp only [List.flatten_append, List.flatMap_append, List.count_append, hdescription, hsee, hdefault]
  unfold shownTitle
  cases ht : a.title with
  | none => simp only [List.flatten_nil, List.count_nil]; omega
  | some t =>
    by_cases hown : some t = inferred
    · simp only [hown, if_true, List.flatten_nil, List.count_nil]; omega
    · simp only [hown, if_false, List.flatten_singleton, List.count_append, Option.toList_some, List.flatMap_singleton]
      omega

/-- The lines that are read from a comment of several lines hold no more than those that it was written of. -/
theorem count_commentLines {text : List Char} (h : '\n' ∈ text) :
    (commentLines (comment text)).flatten.count '\r' ≤ (lines text).flatten.count '\r' := by
  have hcomment : comment text = "/**".toList ++ ('\n' :: (joinWith ['\n'] ((lines text).map starred) ++ "\n ".toList)) ++
      "*/".toList := by
    rw [comment, if_pos (by simpa using h)]
    simp
  have hstarred : ∀ l : List Char, (starred l).count '\r' = l.count '\r' := by
    intro l
    cases l <;> simp [starred]
  have hwithout := count_map_le fun l => (withoutStar_isSuffix l).sublist.count_le '\r'
  refine (hwithout _).trans ?_
  rw [List.map_id', hcomment, content_wrap]
  refine (count_lines _).1.trans (((unescape_sublist _).count_le '\r').trans (le_of_eq ?_))
  rw [List.count_cons_of_ne (by decide), List.count_append, count_joinWith (by decide), count_map hstarred]
  simp

/-- A carriage return at the end of a line of the description does not come back. -/
theorem not_return_of_count {a : Annotations} {inferred : Option String}
    (hcount : ∀ doc, render a inferred = some doc →
      (a.texts inferred).count '\r' ≤ (commentLines doc.toList).flatten.count '\r')
    {s : String} (hs : a.description = some s) (ht : Tight s.toList) : ¬['\r', '\n'] <:+: s.toList := by
  intro hreturn
  have hshown : s.toList ∈ shownTexts a := by simp [shownTexts, hs]
  have hbody : ['\r', '\n'] <:+: body a inferred := by
    have hinfix := infix_body inferred hshown
    rw [trim_tight ht] at hinfix
    exact (return_escape hreturn).trans hinfix
  have hne : body a inferred ≠ [] := by
    intro hnil
    rw [hnil, List.infix_nil] at hbody
    cases hbody
  have hread := hcount _ (by rw [render_body, if_neg hne])
  rw [String.toList_ofList] at hread
  have hlines := count_commentLines (hbody.subset (show '\n' ∈ ['\r', '\n'] by simp))
  have hlost := (count_lines (body a inferred)).2 hbody
  have hwritten : (body a inferred).count '\r' ≤ (a.texts inferred).count '\r' := by
    rw [body, count_escape (by decide)]
    refine ((trim_isInfix _).sublist.count_le _).trans ?_
    rw [count_joinWith (by decide)]
    exact count_sections a inferred
  omega

theorem count_withoutStar (rest : List Char) : (withoutStar ('*' :: rest ++ [' '])).count '*' = rest.count '*' := by
  have hstart : trimStart ('*' :: rest ++ [' ']) = '*' :: (rest ++ [' ']) := trimStart_tight (by
    intro c hc
    obtain rfl : '*' = c := by simpa using hc
    decide)
  rw [withoutStar, hstart]
  cases rest with
  | nil => rfl
  | cons c rest =>
    by_cases hc : c = ' '
    · simp [hc]
    · simp [hc, List.count_cons]

/-- A star at the start of the only line does not come back. -/
theorem not_star_of_count {a : Annotations} {inferred : Option String} (h : a.Enclosed inferred)
    (hcount : ∀ doc, render a inferred = some doc →
      (a.texts inferred).count '*' ≤ (commentLines doc.toList).flatten.count '*')
    {s : List Char} (hs : sections a inferred = [s]) (hbreak : '\n' ∉ s) : s.head? ≠ some '*' := by
  intro hstar
  obtain ⟨d, hd, rfl⟩ : ∃ d ∈ a.description, d.toList = s :=
    (head?_of_mem_sections (hs ▸ List.mem_singleton_self s)).resolve_right (by simp [hstar])
  have hheld := h.description d hd
  have hblock := hheld.block
  rw [lines_one hheld hbreak] at hblock
  have hbody : body a inferred = escape (joinWith ['\n'] [d.toList]) := by
    rw [body, hs, joinWith_singleton, joinWith_singleton, trim_tight hheld.tight]
  have hne : body a inferred ≠ [] := by
    rw [hbody, joinWith_singleton]
    exact mt escape_eq_nil.mp hheld.nonempty
  have hread := hcount _ (by rw [render_body, if_neg hne])
  obtain ⟨rest, hrest⟩ : ∃ rest, d.toList = '*' :: rest := by
    cases hd : d.toList with
    | nil => simp [hd] at hstar
    | cons c rest => exact ⟨rest, by simpa [hd] using hstar⟩
  rw [String.toList_ofList, hbody, commentLines_one hblock, List.flatten_singleton, hrest, count_withoutStar] at hread
  have htexts : (d.toList).count '*' ≤ (a.texts inferred).count '*' := by
    rw [Annotations.texts, List.count_append, hd, Option.toList_some, List.flatMap_singleton]
    omega
  rw [hrest, List.count_cons_self] at htexts
  omega

theorem length_splitTags (ls : List (List Char)) :
    (splitTags ls).2.length = ls.countP fun l => decide (StartsTag l) := by
  induction ls with
  | nil => rfl
  | cons l ls ih =>
    rw [List.countP_cons, splitTags]
    cases htag : tagOf? l with
    | none => simp [ih, tagOf?_eq_none.mp htag]
    | some tag =>
      have hl : StartsTag l := by
        by_contra hnot
        rw [tagOf?_eq_none.mpr hnot] at htag
        cases htag
      simp [ih, hl]

/-- Where tags are written, no more tags start than these only if no other line starts one. -/
theorem noTag_of_length {tags : List Tag} (hhead : ∀ t ∈ tags, StartsTag t.headline)
    (h : (splitTags (tags.flatMap fun t => t.lines ++ [[]])).2.length ≤ tags.length) :
    ∀ t ∈ tags, ∀ l ∈ t.more, ¬StartsTag l := by
  have hcount : ∀ tags : List Tag, (∀ t ∈ tags, StartsTag t.headline) →
      (tags.flatMap fun t => t.lines ++ [[]]).countP (fun l => decide (StartsTag l)) =
        tags.length + (tags.flatMap Tag.more).countP fun l => decide (StartsTag l) := by
    intro tags hhead
    induction tags with
    | nil => rfl
    | cons t tags ih =>
      have hfirst := hhead t List.mem_cons_self
      rw [List.flatMap_cons, List.countP_append, ih fun u hu => hhead u (List.mem_cons_of_mem _ hu), List.flatMap_cons,
        List.countP_append, Tag.lines, List.countP_append, List.countP_cons, List.length_cons]
      simp [hfirst, not_startsTag_nil]
      omega
  rw [length_splitTags, hcount tags hhead] at h
  have hnone : (tags.flatMap Tag.more).countP (fun l => decide (StartsTag l)) = 0 := by omega
  rw [List.countP_eq_zero] at hnone
  intro t ht l hl
  simpa using hnone l (List.mem_flatMap.mpr ⟨t, ht, hl⟩)

theorem startsTag_headline {t : Tag} (h : ∃ c rest, t.name = c :: rest ∧ c.isAlpha) : StartsTag t.headline := by
  obtain ⟨c, rest, hname, hc⟩ := h
  refine ⟨c, rest ++ if t.first.isEmpty then [] else ' ' :: t.first, ?_, hc⟩
  rw [Tag.headline, hname, trimStart_tight]
  · rfl
  · intro d hd
    obtain rfl : '@' = d := by simpa using hd
    decide

theorem startsTag_of_mem_tagsOf {a : Annotations} {inferred : Option String} {t : Tag} (ht : t ∈ tagsOf a inferred) :
    StartsTag t.headline := by
  have hname : ∀ {name : String}, IsTagName name → ∃ c rest, name.toList = c :: rest ∧ c.isAlpha := by
    rintro name ⟨c, rest, hname, hc, -⟩
    exact ⟨c, rest, hname, hc⟩
  simp only [tagsOf, List.mem_append, List.mem_map] at ht
  rcases ht with ((⟨s, -, rfl⟩ | ⟨s, -, rfl⟩) | ⟨s, -, rfl⟩) | ⟨s, -, rfl⟩
  · exact startsTag_headline (hname isTagName_title)
  · exact startsTag_headline (hname isTagName_example)
  · exact startsTag_headline (hname isTagName_default)
  · exact startsTag_headline (hname isTagName_see)

/-- Every name of a tag brings an at sign. -/
theorem count_wordsOf (tags : List Tag) : tags.length + (textsOf tags).count '@' ≤ (wordsOf tags).count '@' := by
  induction tags with
  | nil => exact le_refl _
  | cons t tags ih =>
    rw [textsOf, wordsOf] at ih ⊢
    rw [List.flatMap_cons, List.flatMap_cons, List.count_append, List.count_append, List.count_append,
      List.count_cons_self, List.length_cons]
    omega

theorem count_tags {f : String → Tag} {texts : List String}
    (h : ∀ s ∈ texts, (f s).lines.flatten.count '@' = s.toList.count '@' + 1) :
    ((texts.map f).flatMap fun t => t.lines ++ [[]]).flatten.count '@' =
      texts.length + (texts.flatMap String.toList).count '@' := by
  induction texts with
  | nil => rfl
  | cons s texts ih =>
    have hs := h s List.mem_cons_self
    have hrest := ih fun t ht => h t (List.mem_cons_of_mem _ ht)
    simp only [List.map_cons, List.flatMap_cons, List.flatten_append, List.flatten_singleton, List.append_nil,
      List.count_append, List.length_cons]
    omega

theorem count_lineTag {name s : String} (hname : '@' ∉ name.toList) (h : Held s) :
    (lineTag name s).lines.flatten.count '@' = s.toList.count '@' + 1 := by
  rw [← count_joinWith (show '@' ∉ ['\n'] by decide), joinWith_lineTag h, List.count_append, List.count_cons_self,
    List.count_cons_of_ne (by decide), List.count_eq_zero.mpr hname]
  omega

theorem count_blockTag {name s : String} (hname : '@' ∉ name.toList) (h : Held s) :
    (blockTag name s).lines.flatten.count '@' = s.toList.count '@' + 1 := by
  have hlines : (lines s.toList).flatten.count '@' = s.toList.count '@' := by
    rw [← count_joinWith (show '@' ∉ ['\n'] by decide), h.joinWith_lines]
  rw [← count_joinWith (show '@' ∉ ['\n'] by decide), joinWith_blockTag h, List.count_append, List.count_cons_self,
    List.count_cons_of_ne (by decide), List.count_eq_zero.mpr hname, count_joinWith (by decide),
    count_prefixed (by decide), hlines]
  omega

/-- The at signs of what is written behind a description: one for each tag, and those of the texts. -/
theorem count_tagsOf {a : Annotations} {inferred : Option String} (h : a.Enclosed inferred) :
    ((tagsOf a inferred).flatMap fun t => t.lines ++ [[]]).flatten.count '@' =
      (tagsOf a inferred).length + (a.words inferred).count '@' := by
  have hdefault : ∀ s ∈ (a.defaultValue.map Annotations.defaultText).toList, Held s := by
    intro s hs
    obtain ⟨v, hv, rfl⟩ := Option.map_eq_some_iff.mp (Option.mem_toList.mp hs)
    obtain ⟨s, rfl, hheld⟩ := h.default v hv
    exact hheld
  have htitles := count_tags fun s hs =>
    count_lineTag (show '@' ∉ "title".toList by decide) (h.title s (Option.mem_toList.mp hs)).1
  have hexamples := count_tags fun s hs => count_blockTag (show '@' ∉ "example".toList by decide) (h.examples s hs)
  have hdefaults := count_tags fun s hs => count_lineTag (show '@' ∉ "default".toList by decide) (hdefault s hs)
  have hlinks := count_tags fun s hs => count_lineTag (show '@' ∉ "see".toList by decide) (h.see s hs)
  rw [tagsOf, Annotations.words]
  simp only [List.flatMap_append, List.flatten_append, List.count_append, List.length_append, List.length_map, htitles,
    hexamples, hdefaults, hlinks]
  omega

end DocComment

end TypeSchema
