import TypeSchema.Number.Basic
import TypeSchema.Syntax.Lexer
import TypeSchema.Text.Quoted

namespace TypeSchema

/-- The marks in printed declarations. -/
inductive Mark
  | openParen
  | closeParen
  | openBracket
  | closeBracket
  | openBrace
  | closeBrace
  | colon
  | semicolon
  | comma
  | question
  | bar
  | ampersand
  | equals
  | minus
  | dots
deriving DecidableEq

def Mark.text : Mark → String
  | openParen => "("
  | closeParen => ")"
  | openBracket => "["
  | closeBracket => "]"
  | openBrace => "\x7b"
  | closeBrace => "\x7d"
  | colon => ":"
  | semicolon => ";"
  | comma => ","
  | question => "?"
  | bar => "|"
  | ampersand => "&"
  | equals => "="
  | minus => "-"
  | dots => "..."

/-- Is a mark read as part of a longer one with this character behind it? -/
def Mark.joins : Mark → Char → Bool
  | equals, c => '>' == c
  | openBrace, c => '|' == c
  | bar, c => '\x7d' == c
  | minus, c => '-' == c
  | _, _ => false

/-- A token by what it says. -/
inductive Atom
  | word (name : String)
  | string (value : String)
  | number (n : Nat)
  | mark (mark : Mark)
  | finish
deriving DecidableEq

namespace Atom

def kind : Atom → TokenKind
  | word _ => .word
  | string _ => .string
  | number _ => .number
  | mark _ => .mark
  | finish => .finish

def text : Atom → String
  | word name => name
  | string value => Quoted.quote value
  | number n => String.ofList (Number.digits n)
  | mark m => m.text
  | finish => ""

def isMark (a : Atom) (text : String) : Bool := a.kind == .mark && a.text == text

def isWord (a : Atom) (text : String) : Bool := a.kind == .word && a.text == text

end Atom

/-- What stands in front of a token: comments, each with the blanks before it, and the blanks after them. -/
structure Lead where
  comments : List (List Char × List Char) := []
  gap : List Char := []

namespace Lead

def chars (lead : Lead) : List Char :=
  lead.comments.flatMap (fun c => c.1 ++ c.2) ++ lead.gap

/-- With one more comment, and blanks after it. -/
def commented (lead : Lead) (comment gap : List Char) : Lead :=
  ⟨lead.comments ++ [(lead.gap, comment)], gap⟩

/-- The doc comment among comments, last first, that stand against something after `gap`. -/
def docAfter (gap : List Char) (doc : Option String) : List (List Char × List Char) → Option String
  | [] => doc
  | (before, comment) :: rest =>
    if 1 < gap.count '\n' then doc
    else
      docAfter before
        (if "/**".toList.isPrefixOf comment then some (String.ofList comment) else doc) rest

def doc (lead : Lead) : Option String := docAfter lead.gap none lead.comments.reverse

def startsLine (lead : Lead) : Bool :=
  lead.gap.contains '\n' || lead.comments.any fun c => c.1.contains '\n'

/-- Does no comment stand on the line before? -/
def isFlush (lead : Lead) : Bool := lead.comments.head?.all fun c => c.1.contains '\n'

@[simp] theorem chars_commented (lead : Lead) (comment gap : List Char) :
    (lead.commented comment gap).chars = lead.chars ++ (comment ++ gap) := by
  simp [commented, chars]

end Lead

structure Lexeme where
  lead : Lead := {}
  atom : Atom

def Lexeme.chars (l : Lexeme) : List Char := l.lead.chars ++ l.atom.text.toList

def spelled (ls : List Lexeme) : List Char := ls.flatMap Lexeme.chars

@[simp] theorem spelled_nil : spelled [] = [] := rfl

@[simp] theorem spelled_cons (l : Lexeme) (ls : List Lexeme) : spelled (l :: ls) = l.chars ++ spelled ls := rfl

@[simp] theorem spelled_append (ls more : List Lexeme) :
    spelled (ls ++ more) = spelled ls ++ spelled more := by
  simp [spelled]

/-- A token that shows a lexeme. A span is not shown. -/
structure Token.Shows (t : Token) (l : Lexeme) : Prop where
  kind : t.kind = l.atom.kind
  text : t.text = l.atom.text
  doc : t.doc = l.lead.doc
  startsLine : t.startsLine = l.lead.startsLine
  flush : l.lead.isFlush → t.sameLineComments = []

namespace Token.Shows

variable {t : Token} {l : Lexeme}

theorem isMark (h : t.Shows l) (text : String) : t.isMark text = l.atom.isMark text := by
  simp [Token.isMark, Atom.isMark, h.kind, h.text]

theorem isWord (h : t.Shows l) (text : String) : t.isWord text = l.atom.isWord text := by
  simp [Token.isWord, Atom.isWord, h.kind, h.text]

end Token.Shows

theorem isDigit_of_mem_digits {n : Nat} {c : Char} (h : c ∈ Number.digits n) : isDigit c := by
  have := Nat.isDigit_of_mem_toDigits (by decide) (by decide) h
  simpa [Char.isDigit, isDigit, Char.le_def, and_comm] using this

/-- What holds of the ten digits holds of every digit. -/
theorem forall_digits {p : Char → Prop} (h : ∀ k < 10, p (Char.ofNat (48 + k))) {c : Char} (hc : isDigit c) :
    p c := by
  simp only [isDigit, Bool.and_eq_true, decide_eq_true_eq, Char.le_def, UInt32.le_iff_toNat_le] at hc
  have hn : 48 ≤ c.toNat ∧ c.toNat ≤ 57 := hc
  have := h (c.toNat - 48) (by omega)
  rwa [show 48 + (c.toNat - 48) = c.toNat by omega, Char.ofNat_toNat] at this

theorem isWordChar_of_isDigit {c : Char} (h : isDigit c) : Lexer.isWordChar c :=
  forall_digits (p := (Lexer.isWordChar ·)) (by decide) h

/-- A text that is read as one word. Every identifier is one. -/
def isPlainWord (name : String) : Bool :=
  match name.toList with
  | [] => false
  | c :: rest => Lexer.isWordStart c && rest.all Lexer.isWordChar

/-- What a word or a number ends before. -/
def Breaks (s : List Char) : Prop := ∀ c ∈ s.head?, Lexer.isWordChar c = false ∧ c ≠ '.'

/-- The token at the start of a text is this one, whatever stands before it. -/
structure Atom.Fits (a : Atom) (s : List Char) : Prop where
  nonempty : a.text.toList ≠ []
  piece : ∀ afterOperand,
    Lexer.piece afterOperand (a.text.toList ++ s) = (.token a.kind, a.text.toList.length)

/-- A comment that ends with its last character. -/
def IsComment (c : List Char) : Prop :=
  ∃ body, c = '/' :: '*' :: body ∧ ∀ s, Lexer.blockCommentLength (body ++ s) = body.length

def IsGap (gap : List Char) : Prop := ∀ c ∈ gap, Lexer.isGap c

structure Lead.Proper (lead : Lead) : Prop where
  gap : IsGap lead.gap
  comments : ∀ c ∈ lead.comments, IsGap c.1 ∧ IsComment c.2

/-- Lexemes that come apart again with the text `s` behind them. -/
def Apart : List Lexeme → List Char → Prop
  | [], _ => True
  | l :: ls, s => l.lead.Proper ∧ l.atom.Fits (spelled ls ++ s) ∧ Apart ls s

theorem apart_append {ls more : List Lexeme} {s : List Char} :
    Apart (ls ++ more) s ↔ Apart ls (spelled more ++ s) ∧ Apart more s := by
  induction ls with
  | nil => simp [Apart]
  | cons l ls ih => simp [Apart, ih, and_assoc]

end TypeSchema
