import TypeSchema.Proofs.FileSpelling

namespace TypeSchema

/-- A comment that is closed once: it starts with the start mark, and its one end mark is its end. -/
structure ClosedOnce (s : List Char) : Prop where
  starts : "/**".toList <+: s
  ends : "*/".toList <:+ s
  once : ∀ before after, s = before ++ "*/".toList ++ after → after = []

theorem closedOnce_of_open {s : List Char} (h : Open s) (hstarts : "/**".toList <+: s ++ "*/".toList) :
    ClosedOnce (s ++ "*/".toList) where
  starts := hstarts
  ends := List.suffix_append _ _
  once before after hsplit := by
    rcases List.eq_nil_or_concat after with rfl | ⟨more, last, rfl⟩
    · rfl
    · -- an earlier end mark would stand before the last character
      have hassoc : (s ++ ['*']) ++ ['/'] = (before ++ "*/".toList ++ more) ++ [last] := by
        simpa using hsplit
      obtain ⟨hfront, -⟩ := List.append_inj' hassoc rfl
      have hopen : Open (s ++ ['*']) := open_append h (open_singleton '*') (.inr (by decide))
      exact absurd ⟨before, more, hfront.symm⟩ hopen

/-- Where there are end marks, there is a first one. -/
theorem exists_first_mark {s : List Char} (h : ¬Open s) :
    ∃ before after, s = before ++ "*/".toList ++ after ∧ Open before := by
  induction s with
  | nil => exact absurd (open_of_not_mem (by simp)) h
  | cons c s ih =>
    by_cases hstart : "*/".toList <+: c :: s
    · obtain ⟨after, hafter⟩ := hstart
      exact ⟨[], after, hafter.symm, open_of_not_mem (by simp)⟩
    · have hrest : ¬Open s := fun hs => h fun hi => (List.infix_cons_iff.mp hi).elim hstart hs
      obtain ⟨before, after, rfl, hbefore⟩ := ih hrest
      refine ⟨c :: before, after, rfl, fun hi => ?_⟩
      rcases List.infix_cons_iff.mp hi with hi | hi
      · exact hstart (hi.trans ⟨"*/".toList ++ after, by simp⟩)
      · exact hbefore hi

/-- What is read as one comment, whatever follows, is closed once. -/
theorem IsComment.closedOnce {s : List Char} (h : IsComment s) (hstarts : "/**".toList <+: s) : ClosedOnce s := by
  obtain ⟨body, rfl, hlength⟩ := h
  have hmarked : ¬Open body := by
    intro hopen
    have hend := hlength "*/".toList
    rw [blockCommentLength_append hopen (.inr (by decide))] at hend
    exact absurd hend (by simp [Lexer.blockCommentLength])
  obtain ⟨before, after, rfl, hbefore⟩ := exists_first_mark hmarked
  have hend := hlength []
  rw [List.append_nil, List.append_assoc, blockCommentLength_append hbefore (.inr (by simp))] at hend
  obtain rfl : after = [] := by simpa [Lexer.blockCommentLength] using hend
  have hopen : Open ('/' :: '*' :: before) := by
    refine open_cons (by decide) ?_
    cases before with
    | nil => exact open_singleton '*'
    | cons c before =>
      have hc : '*' = c := by simpa using hstarts
      exact open_append (open_singleton '*') hbefore (.inr (by simp [← hc]))
  simpa using closedOnce_of_open hopen (by simpa using hstarts)

theorem open_joinWith {ls : List (List Char)} (h : ∀ l ∈ ls, Open l) : Open (joinWith ['\n'] ls) := by
  induction ls with
  | nil => exact open_of_not_mem (by simp)
  | cons l ls ih =>
    have hrest := ih fun m hm => h m (List.mem_cons_of_mem _ hm)
    by_cases hls : ls = []
    · rw [hls]
      exact h l List.mem_cons_self
    · rw [joinWith_cons _ _ hls, List.append_assoc]
      exact open_append (h l List.mem_cons_self) (open_cons (by decide) hrest) (.inr (by simp))

namespace DocComment

theorem closedOnce_render {a : Annotations} {inferred : Option String} {doc : String}
    (h : render a inferred = some doc) : ClosedOnce doc.toList := by
  rcases render_cases h with ⟨ls, -, hls, rfl⟩ | ⟨text, hopen, -, rfl⟩
  · have hbody : Open ("/**\n".toList ++ joinWith ['\n'] ls ++ "\n ".toList) := by
      rw [List.append_assoc]
      refine open_append (by unfold Open; decide) ?_ (.inl (by decide))
      exact open_append (open_joinWith fun l hl => (hls l hl).1) (open_of_not_mem (.inl (by decide)))
        (.inr (by decide))
    simpa using closedOnce_of_open hbody ⟨_, rfl⟩
  · have hbody : Open ("/** ".toList ++ text ++ [' ']) := by
      rw [List.append_assoc]
      refine open_append (by unfold Open; decide) ?_ (.inl (by decide))
      exact open_append hopen (open_singleton ' ') (.inr (by decide))
    simpa using closedOnce_of_open hbody ⟨_, rfl⟩

/-- Whatever annotations say, the comment that they are written as is closed once. So is what is printed of it at any
indentation, above a declaration and in front of a type; whatever code follows, exactly this is read as a comment. -/
theorem render_closedOnce {a : Annotations} {inferred : Option String} {doc : String}
    (h : render a inferred = some doc) :
    ClosedOnce doc.toList ∧ ∀ level, ∃ printed : List Char,
      (Printer.blockDoc level (some doc)).toList = indent level ++ printed ++ ['\n'] ∧
      (Printer.inlineDoc level (some doc)).toList = printed ++ [' '] ∧
      ClosedOnce printed ∧
      ∀ afterOperand code, Lexer.piece afterOperand (printed ++ code) = (.comment, printed.length) := by
  have hdoc := isDoc_render h
  refine ⟨closedOnce_render h, fun level => ⟨commentChars level doc, ?_, ?_, ?_, fun afterOperand code => ?_⟩⟩
  · rw [chars_above_of_isDoc hdoc level, List.append_assoc]
  · exact toList_inlineDoc level doc
  · exact (hdoc.comment level).closedOnce (hdoc.opens level)
  · obtain ⟨body, hbody, hlength⟩ := hdoc.comment level
    rw [hbody, List.cons_append, List.cons_append, Lexer.piece_comment, hlength]
    rfl

/-- End marks in every field, one of them put together from two lines, and one that is escaped already. -/
theorem render_closedOnce_marks :
    let a : Annotations := {
      title := some "*/"
      description := some "**/ *\\/ *\r\n/"
      examples := some (.one "/*/")
      defaultValue := some (.array [.string "*/"])
      see := some (.many ["*//", "*"]) }
    let doc := "/**\n * **\\/ *\\/ *\n * /\n *\n * @title *\\/\n *\n * @example\n *     /*\\/\n *\n" ++
      " * @default [\"*\\/\"]\n *\n * @see *\\//\n *\n * @see *\n */"
    render a none = some doc ∧ ClosedOnce doc.toList := by
  intro a doc
  have hrender : render a none = some doc := by decide +kernel
  exact ⟨hrender, (render_closedOnce hrender).1⟩

end DocComment

end TypeSchema
