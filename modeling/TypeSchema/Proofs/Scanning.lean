import Mathlib.Data.List.Forall2
import Mathlib.Data.List.Induction
import Mathlib.Data.List.TakeWhile
import TypeSchema.Proofs.Lexemes

namespace TypeSchema

namespace Lexer

/-- The tokens of a text. -/
def run (scan : Scan) (s : List Char) : List Token := tokensFrom (s.length + 1) scan s

/-- Fuel beyond the length of the text makes no difference. -/
theorem tokensFrom_eq_run {fuel : Nat} {s : List Char} (h : s.length < fuel) (scan : Scan) :
    tokensFrom fuel scan s = run scan s := by
  suffices hall : ∀ n m s scan, s.length < n → s.length < m → tokensFrom n scan s = tokensFrom m scan s from
    hall _ _ s scan h (Nat.lt_succ_self _)
  intro n
  induction n with
  | zero => intro m s scan h; exact absurd h (Nat.not_lt_zero _)
  | succ n ih =>
    intro m s scan hn hm
    obtain ⟨m, rfl⟩ : ∃ k, m = k + 1 := ⟨m - 1, by omega⟩
    cases s with
    | nil => rfl
    | cons c s =>
      have hlen : ((c :: s).drop (max 1 (piece scan.afterOperand (c :: s)).2)).length < n ∧
          ((c :: s).drop (max 1 (piece scan.afterOperand (c :: s)).2)).length < m := by
        simp only [List.length_drop, List.length_cons] at *
        omega
      rw [tokensFrom.eq_3 _ _ _ (by simp), tokensFrom.eq_3 _ _ _ (by simp)]
      rcases hp : piece scan.afterOperand (c :: s) with ⟨kind, length⟩
      rw [hp] at hlen
      cases kind <;> simp only [ih m _ _ hlen.1 hlen.2]

theorem run_nil (scan : Scan) : run scan [] =
    [⟨.finish, "", ⟨scan.offset, scan.offset⟩, scan.row, scan.comments.reverse, scan.onNewLine⟩] := rfl

theorem piece_comment (afterOperand : Bool) (rest : List Char) :
    piece afterOperand ('/' :: '*' :: rest) = (.comment, blockCommentLength rest + 2) := by
  rw [piece.eq_def]
  rfl

/-- Only a slash may start a comment. -/
theorem piece_cons {c : Char} (hc : c ≠ '/') (afterOperand : Bool) (rest : List Char) :
    piece afterOperand (c :: rest) =
      if isGap c then (.gap, 1)
      else if isWordStart c then (.token .word, (rest.takeWhile isWordChar).length + 1)
      else if isDigit c ∨ (c = '.' ∧ rest.head?.any isDigit) then (.token .number, numberLength (c :: rest))
      else if c = '"' ∨ c = '\'' then (.token .string, stringLength c rest + 1)
      else if c.toNat = 96 then (.token .template, templateLength [.template] rest + 1)
      else if c = '#' then (.token .privateName, (rest.takeWhile isWordChar).length + 1)
      else (.token .mark, markLength (c :: rest)) := by
  rw [piece.eq_def]
  split
  · next h => cases h
  · next h => exact absurd (List.cons.inj h).1 hc
  · next h => exact absurd (List.cons.inj h).1 hc
  · next h =>
    obtain ⟨rfl, rfl⟩ := List.cons.inj h
    simp only [hc, false_and, if_false]

/-- The state behind a piece of blanks. -/
def Scan.overGap (scan : Scan) (gap : List Char) : Scan :=
  { scan.pass gap with onNewLine := scan.onNewLine || gap.contains '\n' }

/-- The state behind a comment. -/
def Scan.overComment (scan : Scan) (c : List Char) : Scan :=
  { scan.pass c with
    comments := ⟨String.ofList c, ⟨scan.offset, (scan.pass c).offset⟩, scan.row, (scan.pass c).row,
      scan.onNewLine⟩ :: scan.comments
    onNewLine := false }

/-- The state behind the blanks and comments in front of a token. -/
def Scan.over (scan : Scan) (lead : Lead) : Scan :=
  (lead.comments.foldl (fun scan c => (scan.overGap c.1).overComment c.2) scan).overGap lead.gap

/-- The state behind a token. -/
def Scan.overAtom (scan : Scan) (a : Atom) : Scan :=
  { scan.pass a.text.toList with
    comments := [], onNewLine := false, afterOperand := endsOperand a.kind a.text }

/-- The token that an atom is read as. -/
def Scan.token (scan : Scan) (a : Atom) : Token :=
  ⟨a.kind, a.text, ⟨scan.offset, (scan.pass a.text.toList).offset⟩, scan.row, scan.comments.reverse,
    scan.onNewLine⟩

theorem run_gap_char {c : Char} (h : isGap c) (scan : Scan) (s : List Char) :
    run scan (c :: s) = run (scan.overGap [c]) s := by
  have hc : c ≠ '/' := by
    rintro rfl
    exact absurd h (by decide)
  have hp : piece scan.afterOperand (c :: s) = (.gap, 1) := by
    rw [piece_cons hc, if_pos h]
  rw [run, tokensFrom.eq_3 _ _ _ (by simp), hp]
  simp only [Nat.max_self, List.take_succ_cons, List.take_zero, List.drop_succ_cons, List.drop_zero]
  rw [tokensFrom_eq_run (by simp)]
  rfl

theorem run_gap {gap : List Char} (h : IsGap gap) (scan : Scan) (s : List Char) :
    run scan (gap ++ s) = run (scan.overGap gap) s := by
  induction gap generalizing scan with
  | nil => simp [Scan.overGap, Scan.pass, byteSize]
  | cons c gap ih =>
    rw [List.cons_append, run_gap_char (h c List.mem_cons_self), ih fun d hd => h d (List.mem_cons_of_mem _ hd)]
    congr 1
    simp [Scan.overGap, Scan.pass, byteSize, List.count_cons, Nat.add_assoc, Bool.or_assoc]
    omega

theorem run_comment {c : List Char} (h : IsComment c) (scan : Scan) (s : List Char) :
    run scan (c ++ s) = run (scan.overComment c) s := by
  obtain ⟨body, rfl, hb⟩ := h
  have hp : piece scan.afterOperand ('/' :: '*' :: (body ++ s)) = (.comment, body.length + 2) := by
    rw [piece_comment, hb]
  have hmax : max 1 (body.length + 2) = body.length + 2 := by omega
  rw [run, tokensFrom.eq_3 _ _ _ (by simp)]
  simp only [List.cons_append, hp, hmax, List.take_succ_cons, List.drop_succ_cons, List.take_left', List.drop_left']
  rw [tokensFrom_eq_run (by simp; omega)]
  rfl

theorem run_lead {lead : Lead} (h : lead.Proper) (scan : Scan) (s : List Char) :
    run scan (lead.chars ++ s) = run (scan.over lead) s := by
  obtain ⟨comments, gap⟩ := lead
  obtain ⟨hgap, hcomments⟩ := h
  simp only [Lead.chars, Scan.over] at *
  induction comments generalizing scan with
  | nil => exact run_gap hgap scan s
  | cons c rest ih =>
    obtain ⟨hbefore, hc⟩ := hcomments c List.mem_cons_self
    simp only [List.flatMap_cons, List.append_assoc, List.foldl_cons] at ih ⊢
    rw [run_gap hbefore, run_comment hc, ih _ fun d hd => hcomments d (List.mem_cons_of_mem _ hd)]

theorem run_atom {a : Atom} {s : List Char} (h : a.Fits s) (scan : Scan) :
    run scan (a.text.toList ++ s) = scan.token a :: run (scan.overAtom a) s := by
  have hpos := List.length_pos_iff.mpr h.nonempty
  have hlen : max 1 a.text.toList.length = a.text.toList.length := by omega
  rw [run, tokensFrom.eq_3 _ _ _ (by simp [h.nonempty])]
  simp only [h.piece, hlen, List.take_left', List.drop_left', String.ofList_toList]
  rw [tokensFrom_eq_run (by simp only [List.length_append]; omega)]
  rfl

/-- The state behind comments. -/
def Scan.overComments (scan : Scan) (comments : List (List Char × List Char)) : Scan :=
  comments.foldl (fun scan c => (scan.overGap c.1).overComment c.2) scan

theorem Scan.overComments_concat (scan : Scan) (comments : List (List Char × List Char))
    (c : List Char × List Char) :
    scan.overComments (comments ++ [c]) = ((scan.overComments comments).overGap c.1).overComment c.2 := by
  simp [overComments]

/-- Between two tokens, nothing is left over from before. -/
structure Scan.Fresh (scan : Scan) : Prop where
  comments : scan.comments = []
  onNewLine : scan.onNewLine = false

theorem Scan.fresh_overAtom (scan : Scan) (a : Atom) : (scan.overAtom a).Fresh := ⟨rfl, rfl⟩

namespace Scan.Fresh

variable {scan : Scan} (h : scan.Fresh)

include h

theorem onNewLine_overComments (comments : List (List Char × List Char)) :
    (scan.overComments comments).onNewLine = false := by
  rcases List.eq_nil_or_concat comments with rfl | ⟨before, c, rfl⟩
  · exact h.onNewLine
  · rw [List.concat_eq_append, overComments_concat]
    rfl

theorem breaks_overComments (comments : List (List Char × List Char)) :
    (scan.overComments comments).comments.reverse.map Comment.onNewLine =
      comments.map fun c => c.1.contains '\n' := by
  induction comments using List.reverseRecOn with
  | nil => simp [overComments, h.comments]
  | append_singleton comments c ih =>
    rw [overComments_concat, List.map_append, ← ih]
    simp [overComment, overGap, pass, h.onNewLine_overComments]

theorem docAbove_overComments (comments : List (List Char × List Char)) (gap : List Char) (doc : Option String) :
    Token.docAbove ((scan.overComments comments).overGap gap).row doc (scan.overComments comments).comments =
      Lead.docAfter gap doc comments.reverse := by
  induction comments using List.reverseRecOn generalizing gap doc with
  | nil => simp [overComments, h.comments, Token.docAbove, Lead.docAfter]
  | append_singleton comments c ih =>
    rw [overComments_concat, List.reverse_append, List.reverse_singleton, List.singleton_append, Lead.docAfter,
      ← ih]
    simp only [overComment, Token.docAbove, String.toList_ofList]
    have hrow (s : Scan) : (s.overGap gap).row = s.row + gap.count '\n' := rfl
    simp only [hrow, Nat.add_lt_add_iff_left]
    rfl

/-- The token behind a lead shows it. -/
theorem shows (lead : Lead) (a : Atom) : ((scan.over lead).token a).Shows ⟨lead, a⟩ := by
  have hbreaks := h.breaks_overComments lead.comments
  have hcomments : ((scan.over lead).token a).comments = (scan.overComments lead.comments).comments.reverse := rfl
  refine ⟨rfl, rfl, ?_, ?_, ?_⟩
  · rw [Token.doc, hcomments, List.reverse_reverse]
    exact h.docAbove_overComments lead.comments lead.gap none
  · have hany : ∀ cs : List Comment, cs.any Comment.onNewLine = (cs.map Comment.onNewLine).any id := by simp
    have hgap : ((scan.over lead).token a).onNewLine = lead.gap.contains '\n' := by
      change ((scan.overComments lead.comments).onNewLine || _) = _
      rw [h.onNewLine_overComments, Bool.false_or]
    rw [Token.startsLine, hcomments, hany, hbreaks, hgap, Lead.startsLine, List.any_map]
    rfl
  · intro hflush
    rw [Token.sameLineComments, hcomments]
    rcases hc : (scan.overComments lead.comments).comments.reverse with _ | ⟨c, rest⟩
    · rfl
    · rcases hl : lead.comments with _ | ⟨d, more⟩
      · rw [hl] at hc
        simp [overComments, h.comments] at hc
      · rw [hc, hl] at hbreaks
        have hd : c.onNewLine = d.1.contains '\n' := (List.cons.inj hbreaks).1
        have : d.1.contains '\n' = true := by simpa [Lead.isFlush, hl] using hflush
        rw [List.takeWhile_cons_of_neg (by rw [hd, this]; decide)]

end Scan.Fresh

/-- Lexemes that come apart are read as tokens that show them. -/
theorem run_spelled {ls : List Lexeme} {s : List Char} (h : Apart ls s) {scan : Scan} (hf : scan.Fresh) :
    ∃ ts, ∃ scan' : Scan, scan'.Fresh ∧ List.Forall₂ Token.Shows ts ls ∧
      run scan (spelled ls ++ s) = ts ++ run scan' s := by
  induction ls generalizing scan with
  | nil => exact ⟨[], scan, hf, .nil, rfl⟩
  | cons l ls ih =>
    obtain ⟨hlead, hatom, hrest⟩ := h
    obtain ⟨ts, scan', hf', hts, hrun⟩ := ih hrest ((scan.over l.lead).fresh_overAtom l.atom)
    refine ⟨(scan.over l.lead).token l.atom :: ts, scan', hf', .cons (hf.shows l.lead l.atom) hts, ?_⟩
    rw [spelled_cons, Lexeme.chars, List.append_assoc, List.append_assoc, run_lead hlead, run_atom hatom, hrun]
    rfl

/-- The tokens of a spelled text, with the one that marks its end. -/
theorem tokens_spelled {ls : List Lexeme} {lead : Lead} (h : Apart ls lead.chars) (hlead : lead.Proper)
    {source : String} (hs : source.toList = spelled (ls ++ [⟨lead, .finish⟩]))
    (hstart : source.toList.head? ≠ some '#') :
    List.Forall₂ Token.Shows (tokens source) (ls ++ [⟨lead, .finish⟩]) := by
  have hafter : afterInterpreter source.toList = ({}, source.toList) := by
    unfold afterInterpreter
    split
    · next heq => rw [heq] at hstart; simp at hstart
    · rfl
  have hfresh : ({} : Scan).Fresh := ⟨rfl, rfl⟩
  obtain ⟨ts, scan, hf, hts, hrun⟩ := run_spelled h hfresh
  have htokens : tokens source = ts ++ [(scan.over lead).token .finish] := by
    rw [tokens, hafter]
    change run {} source.toList = _
    rw [hs, spelled_append, show spelled [⟨lead, .finish⟩] = lead.chars by simp [Lexeme.chars, Atom.text], hrun]
    have := run_lead hlead scan []
    rw [List.append_nil] at this
    rw [this, run_nil]
    rfl
  rw [htokens]
  exact List.rel_append hts (.cons (hf.shows lead .finish) .nil)

end Lexer

open Lexer

theorem isWordChar_of_isWordStart {c : Char} (h : isWordStart c) : isWordChar c := by
  simp only [isWordStart, Bool.and_eq_true] at h
  exact h.1

theorem isWordChar_eq {c : Char} : isWordChar c = true ↔ ¬c.toNat < 32 ∧ isGap c = false ∧ isPunctuation c = false := by
  simp [isWordChar, and_assoc]

theorem takeWhile_append_breaks {word s : List Char} (hw : word.all isWordChar) (hs : Breaks s) :
    (word ++ s).takeWhile isWordChar = word := by
  rw [List.takeWhile_append_of_pos (by simpa using hw)]
  cases s with
  | nil => simp
  | cons c s => simp [(hs c rfl).1]

theorem fits_word {name : String} (hn : isPlainWord name) {s : List Char} (hs : Breaks s) :
    (Atom.word name).Fits s := by
  unfold isPlainWord at hn
  split at hn
  · cases hn
  · next c rest hl =>
    simp only [Bool.and_eq_true] at hn
    have hc : c ≠ '/' := by
      rintro rfl
      exact absurd hn.1 (by decide)
    have hgap : isGap c = false := (isWordChar_eq.mp (isWordChar_of_isWordStart hn.1)).2.1
    refine ⟨by simp [Atom.text, hl], fun afterOperand => ?_⟩
    simp only [Atom.text, hl, List.cons_append, piece_cons hc, hgap, hn.1, takeWhile_append_breaks hn.2 hs]
    rfl

theorem stringLength_cons {c : Char} (hb : c ≠ '\\') (hq : c ≠ '"') (s : List Char) :
    stringLength '"' (c :: s) = stringLength '"' s + 1 := by
  rw [stringLength.eq_2 _ _ _ (fun _ _ h _ => hb h), if_neg hq]

theorem hexDigit_ne {n : Nat} (hn : n < 16) : Quoted.hexDigit n ≠ '\\' ∧ Quoted.hexDigit n ≠ '"' := by
  revert n
  decide

theorem stringLength_escape (c : Char) (s : List Char) :
    stringLength '"' (Quoted.escape c ++ s) = (Quoted.escape c).length + stringLength '"' s := by
  unfold Quoted.escape
  split_ifs with h1 h2 h3 h4 h5 h6 h7 h8
  all_goals try (simp only [List.cons_append, List.nil_append, stringLength, List.length_cons, List.length_nil]; omega)
  · have hh := hexDigit_ne (n := c.toNat / 16) (by omega)
    have hl := hexDigit_ne (n := c.toNat % 16) (by omega)
    simp only [List.cons_append, List.nil_append, stringLength, List.length_cons, List.length_nil]
    rw [stringLength_cons (by decide) (by decide), stringLength_cons (by decide) (by decide),
      stringLength_cons hh.1 hh.2, stringLength_cons hl.1 hl.2]
    omega
  · rw [List.singleton_append, stringLength_cons h2 h1, List.length_singleton, Nat.add_comm]

theorem stringLength_body (v s : List Char) :
    stringLength '"' (Quoted.body v ++ '"' :: s) = (Quoted.body v).length + 1 := by
  induction v with
  | nil => simp [stringLength]
  | cons c v ih =>
    rw [Quoted.body_cons, List.append_assoc, stringLength_escape, ih, List.length_append, Nat.add_assoc]

theorem fits_string (value : String) (s : List Char) : (Atom.string value).Fits s := by
  refine ⟨by simp [Atom.text, Quoted.quote], fun afterOperand => ?_⟩
  have hp := stringLength_body value.toList s
  simp only [Atom.text, Quoted.quote, String.toList_ofList, List.cons_append, List.append_assoc, List.nil_append]
  have hdigit : isDigit '"' = false := by decide
  rw [piece_cons (by decide), if_neg (by decide), if_neg (by decide), if_neg (by simp [hdigit]),
    if_pos (.inl rfl), hp]
  simp [Atom.kind]

theorem Breaks.ne {c d : Char} {s : List Char} (h : Breaks (c :: s)) (hd : isWordChar d) : c ≠ d := by
  rintro rfl
  have := (h c rfl).1
  rw [hd] at this
  cases this

theorem Breaks.isDigit {c : Char} {s : List Char} (h : Breaks (c :: s)) : isDigit c = false := by
  by_contra hc
  exact h.ne (isWordChar_of_isDigit (by simpa using hc)) rfl

theorem digitsLength_append {digits s : List Char} (hd : ∀ c ∈ digits, isDigit c) (hs : Breaks s) :
    digitsLength (digits ++ s) = digits.length := by
  rw [digitsLength, List.takeWhile_append_of_pos fun c hc => by simp [hd c hc]]
  cases s with
  | nil => simp
  | cons c s => simp [hs.isDigit, hs.ne (d := '_') (by decide)]

theorem decimalLength_append {digits s : List Char} (hd : ∀ c ∈ digits, isDigit c) (hs : Breaks s) :
    Lexer.decimalLength (digits ++ s) = digits.length := by
  have hfraction : fractionLength s = 0 := by
    unfold fractionLength
    split
    · exact absurd rfl (hs '.' rfl).2
    · rfl
  have hexponent : exponentLength s = 0 := by
    unfold exponentLength
    split
    · rw [if_neg (by simp [hs.ne (d := 'e') (by decide), hs.ne (d := 'E') (by decide)])]
    · rw [if_neg (by simp [hs.ne (d := 'e') (by decide), hs.ne (d := 'E') (by decide)])]
    · rfl
  rw [Lexer.decimalLength, digitsLength_append hd hs]
  simp [hfraction, hexponent]

theorem numberLength_append {digits s : List Char} (hne : digits ≠ []) (hd : ∀ c ∈ digits, isDigit c)
    (hs : Breaks s) : numberLength (digits ++ s) = digits.length := by
  have hsuffix : numberLength.withSuffix (digits ++ s) = digits.length := by
    rw [numberLength.withSuffix, decimalLength_append hd hs]
    simp only [List.drop_left']
    cases s with
    | nil => rfl
    | cons c s => rw [if_neg (by simpa using hs.ne (by decide))]
  unfold numberLength
  split
  · next base rest heq =>
    have hbase : isDigit base ∨ isWordChar base = false := by
      match digits, s with
      | [_], c :: s =>
        obtain ⟨rfl, -⟩ := List.cons.inj (List.cons.inj heq).2
        exact .inr (hs c rfl).1
      | _ :: d :: _, s =>
        obtain ⟨rfl, -⟩ := List.cons.inj (List.cons.inj heq).2
        exact .inl (hd d (by simp))
    have hall : "xXoObB".toList.all fun c => !isDigit c && isWordChar c := by decide
    have hletters : ∀ c ∈ "xXoObB".toList, isDigit c = false ∧ isWordChar c = true := fun c hc => by
      simpa using List.all_eq_true.mp hall c hc
    rw [if_neg, hsuffix]
    intro hmem
    obtain ⟨h1, h2⟩ := hletters base (by simpa using hmem)
    simp [h1, h2] at hbase
  · exact hsuffix

theorem fits_number (n : Nat) {s : List Char} (hs : Breaks s) : (Atom.number n).Fits s := by
  have hd : ∀ c ∈ Number.digits n, isDigit c := fun c => isDigit_of_mem_digits
  have hne : Number.digits n ≠ [] := Nat.toDigits_ne_nil
  have hlen := numberLength_append hne hd hs
  refine ⟨by simpa [Atom.text] using hne, fun afterOperand => ?_⟩
  simp only [Atom.text, String.toList_ofList]
  rcases h : Number.digits n with _ | ⟨c, rest⟩
  · exact absurd h hne
  · rw [h, List.cons_append] at hlen
    have hc := hd c (by simp [h])
    have hslash : c ≠ '/' := by
      rintro rfl
      exact absurd hc (by decide)
    have hgap : isGap c = false := (isWordChar_eq.mp (isWordChar_of_isDigit hc)).2.1
    rw [List.cons_append, piece_cons hslash, if_neg (by simp [hgap]), if_neg (by simp [isWordStart, hc]),
      if_pos (.inl hc), hlen]
    rfl

theorem fits_mark {m : Mark} {s : List Char} (h : ∀ c ∈ s.head?, m.joins c = false) : (Atom.mark m).Fits s := by
  refine ⟨by cases m <;> decide, fun afterOperand => ?_⟩
  have hlength : markLength (m.text.toList ++ s) = m.text.toList.length := by
    cases s with
    | nil => cases m <;> rfl
    | cons c s =>
      have hc := h c rfl
      cases m <;> simp [Mark.text, markLength, longMarks, List.isPrefixOf, List.find?]
      all_goals split
      all_goals simp_all [Mark.joins]
  have hchar : ∃ c rest, m.text.toList = c :: rest ∧ c ≠ '/' ∧ isGap c = false ∧ isWordStart c = false ∧
      isDigit c = false ∧ (c = '.' → rest.head? = some '.') ∧ c ≠ '"' ∧ c ≠ '\'' ∧ c.toNat ≠ 96 ∧ c ≠ '#' := by
    cases m
    all_goals exact ⟨_, _, rfl, by decide, by decide, by decide, by decide, by decide, by decide, by decide,
      by decide, by decide⟩
  obtain ⟨c, rest, ht, hslash, hgap, hword, hdigit, hdots, hquote, hsingle, htick, hhash⟩ := hchar
  have hnumber : ¬(isDigit c ∨ (c = '.' ∧ (rest ++ s).head?.any isDigit)) := by
    rintro (hd | ⟨rfl, hd⟩)
    · exact absurd hd (by simp [hdigit])
    · have hdot : isDigit '.' = false := by decide
      simp [List.head?_append, hdots rfl, hdot] at hd
  rw [ht] at hlength
  simp only [Atom.text, ht, List.cons_append] at hlength ⊢
  rw [piece_cons hslash, if_neg (by simp [hgap]), if_neg (by simp [hword]), if_neg hnumber,
    if_neg (by simp [hquote, hsingle]), if_neg htick, if_neg hhash, hlength]
  rfl

end TypeSchema
