import TypeSchema.Number.Digits
import TypeSchema.Syntax.Token

namespace TypeSchema.Lexer

/-- The characters between tokens, all the blanks of the language and three marks of no width. -/
def isGap (c : Char) : Bool :=
  let n := c.toNat
  (9 ≤ n && n ≤ 13) || n == 32 || n == 0xA0 || n == 0x1680 || (0x2000 ≤ n && n ≤ 0x200B) ||
    n == 0x2028 || n == 0x2029 || n == 0x202F || n == 0x205F || n == 0x2060 || n == 0x3000 || n == 0xFEFF

/-- The characters with a meaning of their own: quotes, brackets, operators. A backslash begins an escape
inside a word. -/
def isPunctuation (c : Char) : Bool :=
  c.toNat == 96 || ":;\"'@#.,|^&<=>+-*/%?!~()[]\x7b\x7d".toList.contains c

def isWordChar (c : Char) : Bool := !(c.toNat < 32 || isGap c || isPunctuation c)

def isWordStart (c : Char) : Bool := isWordChar c && !isDigit c

/-- Up to the end of the line. -/
def lineCommentLength (s : List Char) : Nat :=
  (s.takeWhile fun c => c != '\n' && c != '\r' && c.toNat != 0x2028 && c.toNat != 0x2029).length

/-- Up to the end mark and with it; the text starts inside the comment. -/
def blockCommentLength : List Char → Nat
  | '*' :: '/' :: _ => 2
  | _ :: rest => blockCommentLength rest + 1
  | [] => 0

/-- Up to the closing quote and with it; the text starts inside the quotes. -/
def stringLength (quote : Char) : List Char → Nat
  | '\\' :: _ :: rest => stringLength quote rest + 2
  | c :: rest => if c = quote then 1 else stringLength quote rest + 1
  | [] => 0

/-- What the text of a template stands in, innermost first. -/
inductive Nest
  | template
  | braces

/-- Up to the end of everything that is open, and with it. -/
def templateLength : List Nest → List Char → Nat
  | [], _ => 0
  | _, [] => 0
  | .template :: outer, '\\' :: _ :: rest => templateLength (.template :: outer) rest + 2
  | .template :: outer, '$' :: '{' :: rest => templateLength (.braces :: .template :: outer) rest + 2
  | .template :: outer, c :: rest =>
    templateLength (if c.toNat = 96 then outer else .template :: outer) rest + 1
  | .braces :: outer, c :: rest =>
    templateLength (if c = '}' then outer else if c = '{' then .braces :: .braces :: outer
      else if c.toNat = 96 then .template :: .braces :: outer else .braces :: outer) rest + 1

/-- Up to the closing slash and with it; the text starts inside the slashes. -/
def regexLength (inClass : Bool) : List Char → Nat
  | '\\' :: _ :: rest => regexLength inClass rest + 2
  | c :: rest =>
    if c = '/' ∧ !inClass then 1
    else regexLength (if c = '[' then true else if c = ']' then false else inClass) rest + 1
  | [] => 0

def digitsLength (s : List Char) : Nat := (s.takeWhile fun c => isDigit c || c == '_').length

/-- An exponent mark with its digits. -/
def exponentLength : List Char → Nat
  | e :: sign :: d :: rest =>
    if e = 'e' ∨ e = 'E' then
      if isDigit sign then digitsLength (sign :: d :: rest) + 1
      else if (sign = '+' ∨ sign = '-') ∧ isDigit d then digitsLength (d :: rest) + 2
      else 0
    else 0
  | [e, d] => if (e = 'e' ∨ e = 'E') ∧ isDigit d then 2 else 0
  | _ => 0

/-- A point with the digits after it. -/
def fractionLength : List Char → Nat
  | '.' :: rest => digitsLength rest + 1
  | _ => 0

def decimalLength (s : List Char) : Nat :=
  let whole := digitsLength s
  let fraction := fractionLength (s.drop whole)
  let exponent := exponentLength (s.drop (whole + fraction))
  whole + fraction + exponent

/-- Digits after a base mark. -/
def basedLength (s : List Char) : Nat := (s.takeWhile fun c => c.isAlphanum || c == '_').length

/-- A numeric literal, with the mark of a big integer behind it if it has one. -/
def numberLength (s : List Char) : Nat :=
  match s with
  | '0' :: base :: rest =>
    if "xXoObB".toList.contains base then basedLength rest + 2 else withSuffix s
  | _ => withSuffix s
where
  withSuffix (s : List Char) : Nat :=
    let n := decimalLength s
    if (s.drop n).head? = some 'n' then n + 1 else n

/-- The marks of several characters. -/
def longMarks : List (List Char) :=
  ["...".toList, "=>".toList, "\x7b|".toList, "|\x7d".toList, "++".toList, "--".toList]

def markLength (s : List Char) : Nat :=
  ((longMarks.find? (·.isPrefixOf s)).map List.length).getD 1

/-- What stands at the start of a text. -/
inductive Piece
  | gap
  | comment
  | token (kind : TokenKind)

/-- The piece at the start of a text and its length. After an operand, a slash divides. -/
def piece (afterOperand : Bool) : List Char → Piece × Nat
  | [] => (.gap, 0)
  | '/' :: '/' :: rest => (.comment, lineCommentLength rest + 2)
  | '/' :: '*' :: rest => (.comment, blockCommentLength rest + 2)
  | c :: rest =>
    if isGap c then (.gap, 1)
    else if isWordStart c then (.token .word, (rest.takeWhile isWordChar).length + 1)
    else if isDigit c ∨ (c = '.' ∧ rest.head?.any isDigit) then (.token .number, numberLength (c :: rest))
    else if c = '"' ∨ c = '\'' then (.token .string, stringLength c rest + 1)
    else if c.toNat = 96 then (.token .template, templateLength [.template] rest + 1)
    else if c = '#' then (.token .privateName, (rest.takeWhile isWordChar).length + 1)
    else if c = '/' ∧ !afterOperand then (.token .regex, regexLength false rest + 1)
    else (.token .mark, markLength (c :: rest))

/-- The words after which an operand is expected. -/
def operatorWords : List String :=
  ["return", "typeof", "instanceof", "in", "of", "new", "delete", "void", "throw", "case", "do", "else",
    "yield", "await"]

/-- Does a token end an operand? -/
def endsOperand (kind : TokenKind) (text : String) : Bool :=
  match kind with
  | .word => !operatorWords.contains text
  | .mark => [")", "]", "\x7d"].contains text
  | _ => true

/-- What has been passed on the way to the next token. -/
structure Scan where
  offset : Nat := 0
  row : Nat := 0
  /-- The comments since the last token, last first. -/
  comments : List Comment := []
  onNewLine : Bool := false
  afterOperand : Bool := false

/-- The position after some characters. -/
def Scan.pass (scan : Scan) (passed : List Char) : Scan :=
  { scan with offset := scan.offset + byteSize passed, row := scan.row + passed.count '\n' }

/-- The tokens of a text, the fuel bounding their number. -/
def tokensFrom : Nat → Scan → List Char → List Token
  | 0, _, _ => []
  | _ + 1, scan, [] =>
    [⟨.finish, "", ⟨scan.offset, scan.offset⟩, scan.row, scan.comments.reverse, scan.onNewLine⟩]
  | fuel + 1, scan, s =>
    let (piece, length) := piece scan.afterOperand s
    let passed := s.take (max 1 length)
    let rest := s.drop (max 1 length)
    let after := scan.pass passed
    match piece with
    | .gap => tokensFrom fuel { after with onNewLine := scan.onNewLine || passed.contains '\n' } rest
    | .comment =>
      let comment : Comment :=
        ⟨String.ofList passed, ⟨scan.offset, after.offset⟩, scan.row, after.row, scan.onNewLine⟩
      tokensFrom fuel { after with comments := comment :: scan.comments, onNewLine := false } rest
    | .token kind =>
      let text := String.ofList passed
      ⟨kind, text, ⟨scan.offset, after.offset⟩, scan.row, scan.comments.reverse, scan.onNewLine⟩ ::
        tokensFrom fuel
          { after with comments := [], onNewLine := false, afterOperand := endsOperand kind text } rest

/-- The text without the line that names an interpreter, and the position where it starts. -/
def afterInterpreter (s : List Char) : Scan × List Char :=
  match s with
  | '#' :: '!' :: _ =>
    let line := s.takeWhile (· != '\n')
    (({} : Scan).pass line, s.drop line.length)
  | _ => ({}, s)

/-- The tokens of a text, in order; the last one marks its end. -/
def tokens (source : String) : List Token :=
  let (scan, s) := afterInterpreter source.toList
  tokensFrom (s.length + 1) scan s

end TypeSchema.Lexer
