import TypeSchema.Emit
import TypeSchema.Proofs.Legible
import TypeSchema.Proofs.Scanning

namespace TypeSchema

namespace Lead

/-- One space. -/
def space : Lead := { gap := [' '] }

/-- The start of a line. -/
def line (level : Nat) : Lead := { gap := '\n' :: indent level }

/-- With a comment on the line of the token. -/
def inline (lead : Lead) (level : Nat) : Option String → Lead
  | none => lead
  | some doc => lead.commented (commentChars level doc) [' ']

/-- With a comment on lines of its own. -/
def above (lead : Lead) (level : Nat) : Option String → Lead
  | none => lead
  | some doc => lead.commented (commentChars level doc) ('\n' :: indent level)

theorem isGap_indent (level : Nat) : IsGap (indent level) := by
  rw [indent_eq]
  intro c hc
  rw [List.eq_of_mem_replicate hc]
  decide

theorem isGap_cons {c : Char} (hc : Lexer.isGap c) {gap : List Char} (h : IsGap gap) : IsGap (c :: gap) := by
  intro d hd
  rcases List.mem_cons.mp hd with rfl | hd
  · exact hc
  · exact h d hd

theorem proper_empty : ({} : Lead).Proper := ⟨by simp [IsGap], by simp⟩

theorem proper_space : space.Proper := ⟨isGap_cons (by decide) (by simp [IsGap]), by simp [space]⟩

theorem proper_line (level : Nat) : (line level).Proper :=
  ⟨isGap_cons (by decide) (isGap_indent level), by simp [line]⟩

theorem Proper.commented {lead : Lead} (h : lead.Proper) {comment gap : List Char} (hc : IsComment comment)
    (hg : IsGap gap) : (lead.commented comment gap).Proper := by
  refine ⟨hg, fun c hm => ?_⟩
  rcases List.mem_append.mp hm with hm | hm
  · exact h.comments c hm
  · rw [List.mem_singleton.mp hm]
    exact ⟨h.gap, hc⟩

theorem Proper.inline {lead : Lead} (h : lead.Proper) (level : Nat) {doc : Option String}
    (hd : ∀ d ∈ doc, IsDoc d) : (lead.inline level doc).Proper := by
  cases doc with
  | none => exact h
  | some d => exact h.commented ((hd d rfl).comment level) (isGap_cons (by decide) (by simp [IsGap]))

theorem Proper.above {lead : Lead} (h : lead.Proper) (level : Nat) {doc : Option String}
    (hd : ∀ d ∈ doc, IsDoc d) : (lead.above level doc).Proper := by
  cases doc with
  | none => exact h
  | some d => exact h.commented ((hd d rfl).comment level) (isGap_cons (by decide) (isGap_indent level))

@[simp] theorem chars_empty : ({} : Lead).chars = [] := rfl

@[simp] theorem chars_space : space.chars = [' '] := rfl

@[simp] theorem chars_line (level : Nat) : (line level).chars = '\n' :: indent level := rfl

end Lead

theorem intercalate_joinWith (separator : List Char) (ls : List (List Char)) :
    separator.intercalate ls = joinWith separator ls := by
  induction ls with
  | nil => simp
  | cons l ls ih =>
    cases ls with
    | nil => simp
    | cons m ls => rw [List.intercalate_cons_cons, ih, joinWith_cons _ _ (List.cons_ne_nil _ _)]

theorem toList_docLines (doc : String) :
    (Printer.docLines doc).map String.toList = (lines doc.toList).map trimEnd := by
  simp [Printer.docLines, Function.comp_def]

theorem toList_inlineDoc (level : Nat) (doc : String) :
    (Printer.inlineDoc level (some doc)).toList = commentChars level doc ++ [' '] := by
  rw [Printer.inlineDoc, String.toList_append, String.toList_intercalate, intercalate_joinWith, toList_docLines,
    commentChars]
  simp [indent]

@[simp] theorem Lead.chars_inline (lead : Lead) (level : Nat) (doc : Option String) :
    (lead.inline level doc).chars = lead.chars ++ (Printer.inlineDoc level doc).toList := by
  cases doc with
  | none => simp [inline, Printer.inlineDoc]
  | some doc => rw [inline, chars_commented, toList_inlineDoc]

theorem chars_above_of_isDoc {doc : String} (h : IsDoc doc) (level : Nat) :
    (Printer.blockDoc level (some doc)).toList = indent level ++ (commentChars level doc ++ ['\n']) := by
  have hne : (lines doc.toList).map trimEnd ≠ [] := by
    intro hnil
    obtain ⟨more, hm⟩ := h.opens level
    rw [commentChars, hnil] at hm
    cases hm
  have hlines : (Printer.blockDoc level (some doc)).toList =
      ((lines doc.toList).map trimEnd).flatMap fun line => indent level ++ line ++ ['\n'] := by
    rw [← toList_docLines]
    simp [Printer.blockDoc, String.toList_join, List.flatMap_map, indent]
  rw [hlines, commentChars]
  generalize (lines doc.toList).map trimEnd = ls at hne
  induction ls with
  | nil => exact absurd rfl hne
  | cons l ls ih =>
    by_cases hls : ls = []
    · simp [hls]
    · rw [List.flatMap_cons, ih hls, joinWith_cons _ _ hls]
      simp

theorem Lead.chars_above {lead : Lead} (before : List Char) {level : Nat} (hlead : lead.chars = before ++ indent level)
    {doc : Option String} (h : ∀ d ∈ doc, IsDoc d) :
    (lead.above level doc).chars = before ++ ((Printer.blockDoc level doc).toList ++ indent level) := by
  cases doc with
  | none => simp [above, hlead, Printer.blockDoc]
  | some doc =>
    rw [above, chars_commented, hlead, chars_above_of_isDoc (h doc rfl)]
    simp

/-- Parentheses where they are needed, around what has nothing in front of it then. -/
def wrappedLexemes (needed : Bool) (lead : Lead) (inner : Lead → List Lexeme) : List Lexeme :=
  if needed then ⟨lead, .mark .openParen⟩ :: (inner {} ++ [⟨{}, .mark .closeParen⟩]) else inner lead

def literalLexemes (lead : Lead) : Literal → List Lexeme
  | .string value => [⟨lead, .string value⟩]
  | .number (.integer n) =>
    if n < 0 then [⟨lead, .mark .minus⟩, ⟨{}, .number n.natAbs⟩] else [⟨lead, .number n.natAbs⟩]
  | .number (.float _) | .other _ => []
  | .boolean b => [⟨lead, .word (if b then "true" else "false")⟩]
  | .null => [⟨lead, .word "null"⟩]

def nameAtom (name : String) : Atom := if isSafeName name then .word name else .string name

mutual

/-- The lexemes of a type, as far as it is legible. -/
def kindLexemes (lead : Lead) (level : Nat) : TypeKind → List Lexeme
  | .keyword k => [⟨lead, .word k.name⟩]
  | .literal l => literalLexemes lead l
  | .reference name _ _ => [⟨lead, .word name⟩]
  | .array ⟨kind, _, _⟩ =>
    wrappedLexemes (Printer.isOperation kind) lead (fun lead => kindLexemes lead level kind) ++
      [⟨{}, .mark .openBracket⟩, ⟨{}, .mark .closeBracket⟩]
  | .tuple [] => [⟨lead, .mark .openBracket⟩, ⟨{}, .mark .closeBracket⟩]
  | .tuple (first :: rest) =>
    ⟨lead, .mark .openBracket⟩ ::
      (elementLexemes {} level first ++ (elementsAfterLexemes level rest ++ [⟨{}, .mark .closeBracket⟩]))
  | .union [] | .intersection [] => []
  | .union (⟨kind, doc, _⟩ :: rest) =>
    wrappedLexemes (Printer.isUnion kind) (lead.inline level doc) (fun lead => kindLexemes lead level kind) ++
      operandsAfterLexemes .bar Printer.isUnion level rest
  | .intersection (⟨kind, doc, _⟩ :: rest) =>
    wrappedLexemes (Printer.isOperation kind) (lead.inline level doc) (fun lead => kindLexemes lead level kind) ++
      operandsAfterLexemes .ampersand Printer.isOperation level rest
  | .object all =>
    if all.isEmpty then [⟨lead, .mark .openBrace⟩, ⟨{}, .mark .closeBrace⟩]
    else
      ⟨lead, .mark .openBrace⟩ :: (memberLexemes (level + 1) all ++ [⟨.line level, .mark .closeBrace⟩])
  | .parenthesized _ | .unsupported _ => []

/-- The lexemes of operands that follow a first one, each behind the mark of the operation. -/
def operandsAfterLexemes (operator : Mark) (wraps : TypeKind → Bool) (level : Nat) : List TypeExpr → List Lexeme
  | [] => []
  | ⟨kind, doc, _⟩ :: rest =>
    ⟨.space, .mark operator⟩ ::
      (wrappedLexemes (wraps kind) (Lead.space.inline level doc) (fun lead => kindLexemes lead level kind) ++
        operandsAfterLexemes operator wraps level rest)

def elementLexemes (lead : Lead) (level : Nat) : TupleElement → List Lexeme
  | ⟨mark, ⟨kind, _, _⟩, _⟩ =>
    if mark = .rest then ⟨lead, .mark .dots⟩ :: kindLexemes {} level kind else kindLexemes lead level kind

def elementsAfterLexemes (level : Nat) : List TupleElement → List Lexeme
  | [] => []
  | e :: rest => ⟨{}, .mark .comma⟩ :: (elementLexemes .space level e ++ elementsAfterLexemes level rest)

/-- The lexemes of members, each on a line of its own. -/
def memberLexemes (level : Nat) : List Member → List Lexeme
  | [] => []
  | .property name optional (some ⟨kind, _, _⟩) doc _ :: rest =>
    ⟨(Lead.line level).above level doc, nameAtom name⟩ ::
      ((if optional then [⟨{}, .mark .question⟩] else []) ++
        ⟨{}, .mark .colon⟩ :: (kindLexemes .space level kind ++
          ⟨{}, .mark .semicolon⟩ :: memberLexemes level rest))
  | .index param ⟨key, _, _⟩ ⟨value, _, _⟩ doc _ :: rest =>
    ⟨(Lead.line level).above level doc, .mark .openBracket⟩ :: ⟨{}, .word param⟩ :: ⟨{}, .mark .colon⟩ ::
      (kindLexemes .space level key ++
        ⟨{}, .mark .closeBracket⟩ :: ⟨{}, .mark .colon⟩ :: (kindLexemes .space level value ++
          ⟨{}, .mark .semicolon⟩ :: memberLexemes level rest))
  | .property _ _ none _ _ :: rest | .other _ :: rest => memberLexemes level rest

end

/-- Lexemes that spell a text and come apart before everything that a word ends before. -/
structure Spells (ls : List Lexeme) (text : List Char) : Prop where
  spelled : spelled ls = text
  apart : ∀ s, Breaks s → Apart ls s

theorem breaks_cons {c : Char} (h : Lexer.isWordChar c = false ∧ c ≠ '.') (s : List Char) : Breaks (c :: s) := by
  intro d hd
  obtain rfl : c = d := by simpa using hd
  exact h

namespace Spells

theorem nil : Spells [] [] := ⟨rfl, fun _ _ => trivial⟩

theorem append {ls more : List Lexeme} {text rest : List Char} (h : Spells ls text) (hm : Spells more rest)
    (hb : ∀ s, Breaks s → Breaks (rest ++ s)) : Spells (ls ++ more) (text ++ rest) := by
  refine ⟨by rw [spelled_append, h.spelled, hm.spelled], fun s hs => apart_append.mpr ⟨?_, hm.apart s hs⟩⟩
  rw [hm.spelled]
  exact h.apart _ (hb s hs)

theorem cons {l : Lexeme} {ls : List Lexeme} {text : List Char} (hl : l.lead.Proper)
    (hf : ∀ s, Breaks s → l.atom.Fits (text ++ s)) (h : Spells ls text) : Spells (l :: ls) (l.chars ++ text) := by
  refine ⟨by rw [spelled_cons, h.spelled], fun s hs => ⟨hl, ?_, h.apart s hs⟩⟩
  rw [h.spelled]
  exact hf s hs

theorem singleton {l : Lexeme} (hl : l.lead.Proper) (hf : ∀ s, Breaks s → l.atom.Fits s) : Spells [l] l.chars := by
  have : Spells [l] (l.chars ++ []) := cons hl hf nil
  rwa [List.append_nil] at this

theorem word {lead : Lead} (hl : lead.Proper) {name : String} (hn : isPlainWord name) :
    Spells [⟨lead, .word name⟩] (lead.chars ++ name.toList) :=
  singleton hl fun _ hs => fits_word hn hs

/-- A mark that no longer mark starts with, before anything. -/
theorem mark {lead : Lead} (hl : lead.Proper) {m : Mark} (hm : ∀ c, m.joins c = false) {ls : List Lexeme}
    {text : List Char} (h : Spells ls text) :
    Spells (⟨lead, .mark m⟩ :: ls) (lead.chars ++ (m.text.toList ++ text)) := by
  have := cons (l := ⟨lead, .mark m⟩) hl (fun s _ => fits_mark fun c _ => hm c) h
  rwa [Lexeme.chars, List.append_assoc] at this

/-- A mark before a text that does not make it longer. -/
theorem markBefore {lead : Lead} (hl : lead.Proper) {m : Mark} {ls : List Lexeme} {c : Char} {text : List Char}
    (hm : m.joins c = false) (h : Spells ls (c :: text)) :
    Spells (⟨lead, .mark m⟩ :: ls) (lead.chars ++ (m.text.toList ++ c :: text)) := by
  have := cons (l := ⟨lead, .mark m⟩) hl (fun s _ => fits_mark (by simp [hm])) h
  rwa [Lexeme.chars, List.append_assoc] at this

theorem wrapped (needed : Bool) {lead : Lead} (hl : lead.Proper) {inner : Lead → List Lexeme} {text : String}
    (h : ∀ lead : Lead, lead.Proper → Spells (inner lead) (lead.chars ++ text.toList)) :
    Spells (wrappedLexemes needed lead inner) (lead.chars ++ (Printer.wrapped needed text).toList) := by
  cases needed with
  | false => exact h lead hl
  | true =>
    have hclose := mark Lead.proper_empty (m := .closeParen) (by simp [Mark.joins]) nil
    have hinner := (h {} Lead.proper_empty).append hclose fun s _ => breaks_cons (by decide) _
    have := mark hl (m := .openParen) (by simp [Mark.joins]) hinner
    simpa [wrappedLexemes, Printer.wrapped, Mark.text] using this

end Spells

/-- Operands as they are printed behind the first one. -/
def operandsText (operator : Mark) (wraps : TypeKind → Bool) (level : Nat) (members : List TypeExpr) : List Char :=
  members.flatMap fun t =>
    ' ' :: (operator.text.toList ++ ' ' :: ((Printer.inlineDoc level t.doc).toList ++
      (Printer.wrapped (wraps t.kind) (Printer.typeKind level t.kind)).toList))

theorem toList_unionAfter (level : Nat) (members : List TypeExpr) :
    (Printer.unionAfter level members).toList = operandsText .bar Printer.isUnion level members := by
  induction members with
  | nil => simp [Printer.unionAfter, operandsText]
  | cons t rest ih =>
    obtain ⟨kind, doc, span⟩ := t
    rw [operandsText, List.flatMap_cons, ← operandsText, ← ih]
    simp [Printer.unionAfter, Mark.text]

theorem toList_intersectionAfter (level : Nat) (members : List TypeExpr) :
    (Printer.intersectionAfter level members).toList =
      operandsText .ampersand Printer.isOperation level members := by
  induction members with
  | nil => simp [Printer.intersectionAfter, operandsText]
  | cons t rest ih =>
    obtain ⟨kind, doc, span⟩ := t
    rw [operandsText, List.flatMap_cons, ← operandsText, ← ih]
    simp [Printer.intersectionAfter, Mark.text]

theorem breaks_operandsText (operator : Mark) (wraps : TypeKind → Bool) (level : Nat) (members : List TypeExpr)
    {s : List Char} (hs : Breaks s) : Breaks (operandsText operator wraps level members ++ s) := by
  cases members with
  | nil => exact hs
  | cons t rest => exact breaks_cons (by decide) _

theorem spells_integer {lead : Lead} (hl : lead.Proper) (n : Int) :
    Spells (literalLexemes lead (.number (.integer n)))
      (lead.chars ++ (Printer.literal (.number (.integer n))).toList) := by
  have hnumber (lead : Lead) (hl : lead.Proper) :
      Spells [⟨lead, .number n.natAbs⟩] (lead.chars ++ Number.digits n.natAbs) := by
    have := Spells.singleton (l := ⟨lead, .number n.natAbs⟩) hl fun s hs => fits_number n.natAbs hs
    simpa [Lexeme.chars, Atom.text] using this
  rw [literalLexemes, Printer.literal, Number.text, String.toList_ofList, Number.integerText]
  split
  · have hd := hnumber {} Lead.proper_empty
    rw [Lead.chars_empty, List.nil_append] at hd
    obtain ⟨c, digits, hc⟩ := List.exists_cons_of_ne_nil (Nat.toDigits_ne_nil (n := n.natAbs) (b := 10))
    have hdigit : c ≠ '-' := by
      have : isDigit c := isDigit_of_mem_digits (n := n.natAbs) (by simp [Number.digits, hc])
      rintro rfl
      exact absurd this (by decide)
    rw [Number.digits, hc] at hd ⊢
    exact Spells.markBefore hl (by simpa [Mark.joins] using hdigit.symm) hd
  · exact hnumber lead hl

theorem spells_literal {lead : Lead} (hl : lead.Proper) {l : Literal} (h : l.Legible) :
    Spells (literalLexemes lead l) (lead.chars ++ (Printer.literal l).toList) := by
  cases l with
  | string value => exact Spells.singleton hl fun s _ => fits_string value s
  | number value =>
    cases value with
    | float x => cases h
    | integer n => exact spells_integer hl n
  | boolean b => cases b <;> exact Spells.word hl (by decide)
  | null => exact Spells.word hl (by decide)
  | other text => cases h

theorem Spells.element {lead : Lead} (hl : lead.Proper) {level : Nat} {mark : ElementMark} {kind : TypeKind}
    (span : Option Span) (hmark : mark ≠ .optional)
    (h : ∀ lead : Lead, lead.Proper →
      Spells (kindLexemes lead level kind) (lead.chars ++ (Printer.typeKind level kind).toList)) :
    Spells (elementLexemes lead level ⟨mark, ⟨kind, none, span⟩, none⟩)
      (lead.chars ++ (Printer.element level ⟨mark, ⟨kind, none, span⟩, none⟩).toList) := by
  cases mark with
  | required => simpa [elementLexemes, Printer.element, Printer.type, Printer.inlineDoc] using h lead hl
  | optional => exact absurd rfl hmark
  | rest =>
    have := Spells.mark hl (m := .dots) (by simp [Mark.joins]) (h {} Lead.proper_empty)
    simpa [elementLexemes, Printer.element, Printer.type, Printer.inlineDoc, Mark.text] using this

theorem breaks_elementsAfter (level : Nat) (elements : List TupleElement) {s : List Char} (hs : Breaks s) :
    Breaks ((Printer.elementsAfter level elements).toList ++ s) := by
  cases elements with
  | nil => simpa [Printer.elementsAfter] using hs
  | cons e rest =>
    simp only [Printer.elementsAfter, String.toList_append]
    exact breaks_cons (by decide) _

/-- The characters of a name that may stand without quotes. -/
theorem forall_safe {p : Char → Bool} (h : ∀ n < 128, p (Char.ofNat n)) {c : Char}
    (hc : c.isAlphanum || c == '_' || c == '$') : p c := by
  have hlt : c.val.toNat < 128 := by
    change ((decide (65 ≤ c.val ∧ c.val ≤ 90) || (decide (97 ≤ c.val) && decide (c.val ≤ 122))) ||
        (decide (48 ≤ c.val) && decide (c.val ≤ 57))) || c == '_' || c == '$' at hc
    simp only [Bool.or_eq_true, Bool.and_eq_true, decide_eq_true_eq, beq_iff_eq, UInt32.le_iff_toNat_le] at hc
    rcases hc with (((⟨-, h⟩ | ⟨-, h⟩) | ⟨-, h⟩) | rfl) | rfl
    · exact Nat.lt_of_le_of_lt h (by decide)
    · exact Nat.lt_of_le_of_lt h (by decide)
    · exact Nat.lt_of_le_of_lt h (by decide)
    · decide
    · decide
  have := h c.toNat hlt
  rwa [Char.ofNat_toNat] at this

theorem isPlainWord_of_isSafeName {name : String} (h : isSafeName name) : isPlainWord name := by
  rw [isSafeName] at h
  cases hl : name.toList with
  | nil =>
    rw [hl] at h
    cases h
  | cons c rest =>
    rw [hl] at h
    rw [isPlainWord, hl]
    simp only [Bool.and_eq_true, List.all_eq_true] at h ⊢
    have hstart := forall_safe (c := c) (p := fun c => !(c.isAlpha || c == '$') || Lexer.isWordStart c) (by decide)
      (by simp only [Char.isAlphanum]; grind)
    refine ⟨by simpa [h.1] using hstart, fun d hd => ?_⟩
    have hsafe := h.2 d hd
    have := forall_safe (p := fun c => !(c.isAlphanum || c == '_' || c == '$') || Lexer.isWordChar c) (by decide) hsafe
    simpa [hsafe] using this

theorem text_nameAtom (name : String) : (nameAtom name).text = propertyName name := by
  unfold nameAtom propertyName
  split <;> rfl

theorem fits_nameAtom (name : String) {s : List Char} (hs : Breaks s) : (nameAtom name).Fits s := by
  unfold nameAtom
  split
  · next h => exact fits_word (isPlainWord_of_isSafeName h) hs
  · exact fits_string name s

/-- The name of a property, before a colon. -/
theorem Spells.property (level : Nat) (name : String) (optional : Bool) {doc : Option String}
    (hd : ∀ d ∈ doc, IsDoc d) {ls : List Lexeme} {text : List Char} (h : Spells ls (':' :: text)) :
    Spells (⟨(Lead.line level).above level doc, nameAtom name⟩ ::
        ((if optional then [⟨{}, .mark .question⟩] else []) ++ ls))
      ('\n' :: ((Printer.blockDoc level doc).toList ++ indent level) ++ ((propertyName name).toList ++
        ((if optional then "?" else "").toList ++ ':' :: text))) := by
  have hmark : Spells ((if optional then [⟨{}, .mark .question⟩] else []) ++ ls)
      ((if optional then "?" else "").toList ++ ':' :: text) := by
    cases optional with
    | false => exact h
    | true => exact Spells.mark Lead.proper_empty (m := .question) (by simp [Mark.joins]) h
  have hbreaks (s : List Char) : Breaks ((if optional then "?" else "").toList ++ ':' :: text ++ s) := by
    cases optional <;> exact breaks_cons (by decide) _
  have := Spells.cons (l := ⟨(Lead.line level).above level doc, nameAtom name⟩)
    ((Lead.proper_line level).above level hd) (fun s _ => fits_nameAtom name (hbreaks s)) hmark
  rwa [Lexeme.chars, Lead.chars_above ['\n'] (Lead.chars_line level) hd, text_nameAtom, List.append_assoc]
    at this

theorem all_isOther {members : List Member} (h : LegibleMembers members) :
    members.all Member.isOther = members.isEmpty := by
  match members with
  | [] => rfl
  | .property _ _ _ _ _ :: _ | .index _ _ _ _ _ :: _ => rfl
  | .other _ :: _ => cases h

/-- One operand more, in front of others. -/
theorem Spells.operand {operator : Mark} (hop : operator.joins ' ' = false) {wraps : TypeKind → Bool} {level : Nat}
    {kind : TypeKind} {doc : Option String} (span : Option Span) (hd : ∀ d ∈ doc, IsDoc d)
    (hk : ∀ lead : Lead, lead.Proper →
      Spells (kindLexemes lead level kind) (lead.chars ++ (Printer.typeKind level kind).toList)) {rest : List TypeExpr}
    (hrest : Spells (operandsAfterLexemes operator wraps level rest) (operandsText operator wraps level rest)) :
    Spells (operandsAfterLexemes operator wraps level (⟨kind, doc, span⟩ :: rest))
      (operandsText operator wraps level (⟨kind, doc, span⟩ :: rest)) := by
  have hall := (Spells.wrapped (wraps kind) (Lead.proper_space.inline level hd) hk).append hrest
    fun s hs => breaks_operandsText operator wraps level rest hs
  have := Spells.markBefore Lead.proper_space (m := operator) (c := ' ') hop (by simpa using hall)
  simpa [operandsAfterLexemes, operandsText] using this

mutual

theorem spells_kind {lead : Lead} (hl : lead.Proper) (level : Nat) (kind : TypeKind) (h : kind.Legible) :
    Spells (kindLexemes lead level kind) (lead.chars ++ (Printer.typeKind level kind).toList) := by
  match kind with
  | .keyword k =>
    rw [kindLexemes, Printer.typeKind]
    exact Spells.word hl (by cases k <;> decide)
  | .literal l =>
    rw [kindLexemes, Printer.typeKind]
    exact spells_literal hl h
  | .reference name qualified args =>
    simp only [TypeKind.Legible, isTypeName, Bool.and_eq_true] at h
    obtain ⟨⟨hn, -⟩, -, rfl⟩ := h
    rw [kindLexemes, Printer.typeKind]
    exact Spells.word hl hn
  | .array ⟨kind, doc, span⟩ =>
    obtain ⟨rfl, hk⟩ := h
    have hclose := Spells.mark Lead.proper_empty (m := .closeBracket) (by simp [Mark.joins]) Spells.nil
    have hopen := Spells.mark Lead.proper_empty (m := .openBracket) (by simp [Mark.joins]) hclose
    have := (Spells.wrapped (Printer.isOperation kind) hl fun lead hl => spells_kind hl level kind hk).append hopen
      fun s _ => breaks_cons (by decide) _
    simpa [kindLexemes, Printer.typeKind, Printer.inlineDoc, Mark.text] using this
  | .tuple [] =>
    have hclose := Spells.mark Lead.proper_empty (m := .closeBracket) (by simp [Mark.joins]) Spells.nil
    have := Spells.mark hl (m := .openBracket) (by simp [Mark.joins]) hclose
    simpa [kindLexemes, Printer.typeKind, Mark.text] using this
  | .tuple (first :: rest) =>
    obtain ⟨mark, ⟨kind, doc, span⟩, label⟩ := first
    obtain ⟨hmark, rfl, rfl, hk, hrest⟩ := h
    have hclose := Spells.mark Lead.proper_empty (m := .closeBracket) (by simp [Mark.joins]) Spells.nil
    have hafter := (spells_elements level rest hrest).append hclose fun s _ => breaks_cons (by decide) _
    have hfirst := Spells.element Lead.proper_empty span hmark fun lead hl => spells_kind hl level kind hk
    have hall := hfirst.append hafter fun s _ => by
      rw [List.append_assoc]
      exact breaks_elementsAfter level rest (breaks_cons (by decide) _)
    have := Spells.mark hl (m := .openBracket) (by simp [Mark.joins]) hall
    simpa [kindLexemes, Printer.typeKind, Mark.text] using this
  | .union [] | .intersection [] => exact absurd h.1 (by simp)
  | .union (⟨kind, doc, span⟩ :: rest) =>
    obtain ⟨-, -, hd, hk, hrest⟩ := h
    have hfirst := Spells.wrapped (Printer.isUnion kind) (hl.inline level hd) fun lead hl => spells_kind hl level kind hk
    have := hfirst.append (spells_operands .bar Printer.isUnion (by decide) level rest hrest)
      fun s hs => breaks_operandsText .bar Printer.isUnion level rest hs
    simpa [kindLexemes, Printer.typeKind, toList_unionAfter] using this
  | .intersection (⟨kind, doc, span⟩ :: rest) =>
    obtain ⟨-, hd, hk, hrest⟩ := h
    have hfirst := Spells.wrapped (Printer.isOperation kind) (hl.inline level hd) fun lead hl =>
      spells_kind hl level kind hk
    have := hfirst.append (spells_operands .ampersand Printer.isOperation (by decide) level rest hrest)
      fun s hs => breaks_operandsText .ampersand Printer.isOperation level rest hs
    simpa [kindLexemes, Printer.typeKind, toList_intersectionAfter] using this
  | .object all =>
    obtain ⟨text, htext, hmembers, -⟩ := spells_members (level + 1) all h
    cases hall : all.isEmpty with
    | true =>
      obtain rfl := List.isEmpty_iff.mp hall
      have hclose := Spells.mark Lead.proper_empty (m := .closeBrace) (by simp [Mark.joins]) Spells.nil
      have := Spells.markBefore hl (m := .openBrace) (c := '\x7d') (by decide) hclose
      simpa [kindLexemes, Printer.typeKind, Mark.text] using this
    | false =>
      have hclose := Spells.mark (Lead.proper_line level) (m := .closeBrace) (by simp [Mark.joins]) Spells.nil
      have hinside := htext.append hclose fun s _ => breaks_cons (by decide) _
      rw [Lead.chars_line, List.cons_append, List.append_cons text, ← hmembers] at hinside
      have := Spells.markBefore hl (m := .openBrace) (c := '\n') (by decide) hinside
      simpa [kindLexemes, Printer.typeKind, Mark.text, hall, all_isOther h, indent] using this
  | .parenthesized _ | .unsupported _ => cases h

theorem spells_operands (operator : Mark) (wraps : TypeKind → Bool) (hop : operator.joins ' ' = false) (level : Nat)
    (members : List TypeExpr) (h : LegibleOperands members) :
    Spells (operandsAfterLexemes operator wraps level members) (operandsText operator wraps level members) := by
  match members with
  | [] => exact Spells.nil
  | ⟨kind, doc, span⟩ :: rest =>
    obtain ⟨hd, hk, hrest⟩ := h
    exact .operand hop span hd (fun lead hl => spells_kind hl level kind hk)
      (spells_operands operator wraps hop level rest hrest)

theorem spells_elements (level : Nat) (elements : List TupleElement) (h : LegibleElements elements) :
    Spells (elementsAfterLexemes level elements) (Printer.elementsAfter level elements).toList := by
  match elements with
  | [] => exact Spells.nil
  | ⟨mark, ⟨kind, doc, span⟩, label⟩ :: rest =>
    obtain ⟨hmark, rfl, rfl, hk, hrest⟩ := h
    have hfirst := Spells.element Lead.proper_space span hmark fun lead hl => spells_kind hl level kind hk
    have hall := hfirst.append (spells_elements level rest hrest) fun s hs => breaks_elementsAfter level rest hs
    have := Spells.mark Lead.proper_empty (m := .comma) (by simp [Mark.joins]) hall
    simpa [elementsAfterLexemes, Printer.elementsAfter, Mark.text] using this

/-- Members are printed with a line feed behind each, and spelled with a line feed before each. -/
theorem spells_members (level : Nat) (members : List Member) (h : LegibleMembers members) :
    ∃ text, Spells (memberLexemes level members) text ∧
      '\n' :: (Printer.members level members).toList = text ++ ['\n'] ∧ ∀ s, Breaks s → Breaks (text ++ s) := by
  match members with
  | [] => exact ⟨[], Spells.nil, by simp [Printer.members], fun _ hs => hs⟩
  | .property name optional (some ⟨kind, inner, span'⟩) doc span :: rest =>
    obtain ⟨hd, rfl, hk, hrest⟩ := h
    obtain ⟨text, htext, hmembers, hbreaks⟩ := spells_members level rest hrest
    have hsemi := Spells.mark Lead.proper_empty (m := .semicolon) (by simp [Mark.joins]) htext
    have hkind := (spells_kind Lead.proper_space level kind hk).append hsemi fun s _ => breaks_cons (by decide) _
    have hcolon := Spells.mark Lead.proper_empty (m := .colon) (by simp [Mark.joins]) hkind
    have hname := Spells.property level name optional hd hcolon
    refine ⟨_, hname, ?_, fun s _ => breaks_cons (by decide) _⟩
    simp [Printer.members, Printer.type, Printer.inlineDoc, Mark.text, indent, hmembers]
  | .index param ⟨key, keyDoc, span₁⟩ ⟨value, valueDoc, span₂⟩ doc span :: rest =>
    obtain ⟨hd, hp, rfl, hkey, rfl, hvalue, hrest⟩ := h
    obtain ⟨text, htext, hmembers, hbreaks⟩ := spells_members level rest hrest
    have hsemi := Spells.mark Lead.proper_empty (m := .semicolon) (by simp [Mark.joins]) htext
    have hvalue := (spells_kind Lead.proper_space level value hvalue).append hsemi fun s _ =>
      breaks_cons (by decide) _
    have hcolon := Spells.mark Lead.proper_empty (m := .colon) (by simp [Mark.joins]) hvalue
    have hclose := Spells.mark Lead.proper_empty (m := .closeBracket) (by simp [Mark.joins]) hcolon
    have hkey := (spells_kind Lead.proper_space level key hkey).append hclose fun s _ => breaks_cons (by decide) _
    have hcolon := Spells.mark Lead.proper_empty (m := .colon) (by simp [Mark.joins]) hkey
    have hparam := (Spells.word Lead.proper_empty hp).append hcolon fun s _ => breaks_cons (by decide) _
    have hopen := Spells.mark ((Lead.proper_line level).above level hd) (m := .openBracket) (by simp [Mark.joins]) hparam
    rw [Lead.chars_above ['\n'] (Lead.chars_line level) hd] at hopen
    refine ⟨_, hopen, ?_, fun s _ => breaks_cons (by decide) _⟩
    simp [Printer.members, Printer.type, Printer.inlineDoc, Mark.text, indent, hmembers]
  | .property _ _ none _ _ :: _ | .other _ :: _ => cases h

end

end TypeSchema
