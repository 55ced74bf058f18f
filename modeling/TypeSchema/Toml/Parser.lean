import TypeSchema.Json.Parser
import TypeSchema.Toml.Basic
import TypeSchema.Toml.Moment

namespace TypeSchema.Toml

def isSpace (c : Char) : Bool := c == ' ' || c == '\t'

def skipSpace (s : List Char) : List Char := s.dropWhile isSpace

/-- The characters of comments and of texts without escapes: the tab is the only control character. -/
def isPlain (c : Char) : Bool := c == '\t' || (32 ≤ c.toNat && c.toNat ≠ 127)

/-- The rest after a line break. -/
def lineBreak? : List Char → Option (List Char)
  | '\n' :: rest => some rest
  | '\r' :: '\n' :: rest => some rest
  | _ => none

def skipComment : List Char → List Char
  | '#' :: rest => rest.dropWhile isPlain
  | s => s

/-- The rest after the end of a line that holds nothing more but a comment. -/
def endLine? (s : List Char) : Option (List Char) :=
  match skipComment (skipSpace s) with
  | [] => some []
  | s => lineBreak? s

/-- What stands after spaces, comments and line breaks. The flag says that a comment has begun. -/
def skipGaps (comment : Bool) : List Char → List Char
  | [] => []
  | '\r' :: '\n' :: rest => skipGaps false rest
  | c :: rest =>
    if c = '\n' then skipGaps false rest
    else if comment then (if isPlain c then skipGaps true rest else c :: rest)
    else if isSpace c then skipGaps false rest
    else if c = '#' then skipGaps true rest
    else c :: rest

/-- What the character after a backslash stands for, `u` and `U` apart. -/
def shortEscape? : Char → Option Char
  | '"' => some '"'
  | '\\' => some '\\'
  | 'b' => some (Char.ofNat 8)
  | 'f' => some (Char.ofNat 12)
  | 'n' => some '\n'
  | 'r' => some '\r'
  | 't' => some '\t'
  | _ => none

def hexChar? (digits : List Char) : Option Char := (Quoted.hexNumber? digits).bind Json.scalar?

/-- A text of one line with escapes, up to its closing quote, and the rest. -/
def readEscaped? : List Char → Option (List Char × List Char)
  | [] => none
  | '"' :: rest => some ([], rest)
  | '\\' :: 'u' :: a :: b :: c :: d :: rest => do
    let char ← hexChar? [a, b, c, d]
    let (s, rest) ← readEscaped? rest
    some (char :: s, rest)
  | '\\' :: 'U' :: a :: b :: c :: d :: e :: f :: g :: h :: rest => do
    let char ← hexChar? [a, b, c, d, e, f, g, h]
    let (s, rest) ← readEscaped? rest
    some (char :: s, rest)
  | '\\' :: c :: rest => do
    let char ← shortEscape? c
    let (s, rest) ← readEscaped? rest
    some (char :: s, rest)
  | c :: rest =>
    if isPlain c ∧ c ≠ '\\' then (readEscaped? rest).map fun (s, rest) => (c :: s, rest) else none

/-- A text of several lines with escapes, and the rest. While `folding`, blanks and line breaks do not count;
a backslash at the end of a line begins that. -/
def readEscapedLines? (folding : Bool) : List Char → Option (List Char × List Char)
  | [] => none
  | '"' :: '"' :: '"' :: '"' :: '"' :: rest => some (['"', '"'], rest)
  | '"' :: '"' :: '"' :: '"' :: rest => some (['"'], rest)
  | '"' :: '"' :: '"' :: rest => some ([], rest)
  | '\r' :: '\n' :: rest => do
    let (s, rest) ← readEscapedLines? folding rest
    some (if folding then s else '\n' :: s, rest)
  | '\\' :: 'u' :: a :: b :: c :: d :: rest => do
    let char ← hexChar? [a, b, c, d]
    let (s, rest) ← readEscapedLines? false rest
    some (char :: s, rest)
  | '\\' :: 'U' :: a :: b :: c :: d :: e :: f :: g :: h :: rest => do
    let char ← hexChar? [a, b, c, d, e, f, g, h]
    let (s, rest) ← readEscapedLines? false rest
    some (char :: s, rest)
  | '\\' :: c :: rest =>
    if (lineBreak? (skipSpace (c :: rest))).isSome then readEscapedLines? true (c :: rest)
    else do
      let char ← shortEscape? c
      let (s, rest) ← readEscapedLines? false rest
      some (char :: s, rest)
  | c :: rest =>
    if folding ∧ (isSpace c ∨ c = '\n') then readEscapedLines? true rest
    else if (isPlain c ∧ c ≠ '\\') ∨ c = '\n' then
      (readEscapedLines? false rest).map fun (s, rest) => (c :: s, rest)
    else none

/-- A text of one line without escapes, and the rest. -/
def readLiteral? : List Char → Option (List Char × List Char)
  | [] => none
  | c :: rest =>
    if c = '\'' then some ([], rest)
    else if isPlain c then (readLiteral? rest).map fun (s, rest) => (c :: s, rest)
    else none

/-- A text of several lines without escapes, and the rest. -/
def readLiteralLines? : List Char → Option (List Char × List Char)
  | [] => none
  | '\'' :: '\'' :: '\'' :: '\'' :: '\'' :: rest => some (['\'', '\''], rest)
  | '\'' :: '\'' :: '\'' :: '\'' :: rest => some (['\''], rest)
  | '\'' :: '\'' :: '\'' :: rest => some ([], rest)
  | '\r' :: '\n' :: rest => (readLiteralLines? rest).map fun (s, rest) => ('\n' :: s, rest)
  | c :: rest =>
    if isPlain c ∨ c = '\n' then (readLiteralLines? rest).map fun (s, rest) => (c :: s, rest) else none

/-- A text in one of the four forms, if one stands here. A line break right after three quotes does not count. -/
def readText? : List Char → Option (List Char × List Char)
  | '"' :: '"' :: '"' :: rest => readEscapedLines? false ((lineBreak? rest).getD rest)
  | '\'' :: '\'' :: '\'' :: rest => readLiteralLines? ((lineBreak? rest).getD rest)
  | '"' :: rest => readEscaped? rest
  | '\'' :: rest => readLiteral? rest
  | _ => none

/-- The characters of keys without quotes. -/
def isBare (c : Char) : Bool :=
  isDigit c || ('a' ≤ c && c ≤ 'z') || ('A' ≤ c && c ≤ 'Z') || c == '_' || c == '-'

/-- One part of a key. -/
def readKey? : List Char → Option (String × List Char)
  | [] => none
  | c :: rest =>
    let read := if c = '"' then readEscaped? rest else if c = '\'' then readLiteral? rest
      else
        let key := (c :: rest).takeWhile isBare
        if key.isEmpty then none else some (key, (c :: rest).dropWhile isBare)
    read.map fun (key, rest) => (String.ofList key, rest)

/-- The parts of a key with points between them, and what stands after the spaces that follow. -/
def readKeys? : Nat → List Char → Option (List String × List Char)
  | 0, _ => none
  | fuel + 1, s => do
    let (key, rest) ← readKey? (skipSpace s)
    match skipSpace rest with
    | '.' :: rest =>
      let (keys, rest) ← readKeys? fuel rest
      some (key :: keys, rest)
    | rest => some ([key], rest)

/-- How deep arrays and tables may stand inside one another, and how many parts a key may have. -/
def depthLimit : Nat := 79

/-- A key of at most so many parts as the limit says. -/
def readPath? (s : List Char) : Option (List String × List Char) := do
  let (keys, rest) ← readKeys? (s.length + 1) s
  if keys.length ≤ depthLimit then some (keys, rest) else none

/-- The digits without the underscores between them. -/
def plainDigits? (s : List Char) : Option (List Char) :=
  let groups := s.splitOnP (· == '_')
  if groups.any List.isEmpty then none else some groups.flatten

/-- The sign of a number, and the rest. -/
def splitSign : List Char → Option Bool × List Char
  | '-' :: rest => (some true, rest)
  | '+' :: rest => (some false, rest)
  | s => (none, s)

/-- Digits without a zero in front. -/
def isWhole (digits : List Char) : Bool :=
  !digits.isEmpty && digits.all isDigit && (digits.head? ≠ some '0' || digits.length = 1)

/-- An integer of sixty-four bits. Only decimal ones take a sign. -/
def integer? (s : List Char) : Option Int := do
  let (sign, digits) := splitSign s
  match basedDigits? digits with
  | some (base, digits) =>
    if sign.isSome then none
    let n ← ofDigits? base (← plainDigits? digits)
    if n < Nat.pow 2 63 then some n else none
  | none =>
    let digits ← plainDigits? digits
    if !isWhole digits then none
    let n : Int := if sign = some true then -(digitsValue digits : Int) else digitsValue digits
    if -(Nat.pow 2 63 : Int) ≤ n ∧ n < Nat.pow 2 63 then some n else none

/-- Is it a whole part with a fraction, an exponent or both? Each has a digit at least. -/
def isFloat (s : List Char) : Bool :=
  let isGroups (s : List Char) : Bool := (plainDigits? s).any fun digits => digits.all isDigit
  let isExponent (s : List Char) : Bool := isGroups (splitSign s).2
  let isMark (c : Char) : Bool := c == 'e' || c == 'E'
  let whole := s.takeWhile fun c => isDigit c || c == '_'
  (plainDigits? whole).any isWhole &&
    match s.drop whole.length with
    | '.' :: rest =>
      let fraction := rest.takeWhile (!isMark ·)
      isGroups fraction && match rest.drop fraction.length with
        | [] => true
        | _ :: exponent => isExponent exponent
    | e :: exponent => isMark e && isExponent exponent
    | [] => false

/-- A float. A positive one may not be too large for a number; a negative one may. -/
def float? (s : List Char) : Option (Option Binary64) := do
  let (sign, s) := splitSign s
  if s = ['i', 'n', 'f'] ∨ s = ['n', 'a', 'n'] then return none
  if !isFloat s then none
  let negative := sign = some true
  let d ← Decimal.ofChars? ((s.filter (· != '_')).map Char.toLower)
  match Binary64.ofDecimal? negative d.digits d.exponent with
  | some x => some (some x)
  | none => if negative then some none else none

/-- The value that a word stands for. -/
def word? (s : List Char) : Option Value :=
  if s = ['t', 'r', 'u', 'e'] then some (.bool true)
  else if s = ['f', 'a', 'l', 's', 'e'] then some (.bool false)
  else if isMoment s then some (.moment (String.ofList s))
  else match integer? s with
    | some n => some (.integer n)
    | none => (float? s).map .float

def isWordChar (c : Char) : Bool := isBare c || c == '+' || c == '.' || c == ':'

/-- A word and the rest. A time may follow a date after a space. -/
def readWord (s : List Char) : List Char × List Char :=
  let word := s.takeWhile isWordChar
  match afterDate? word, s.drop word.length with
  | some [], ' ' :: d :: rest =>
    if isDigit d then (word ++ ' ' :: (d :: rest).takeWhile isWordChar, (d :: rest).dropWhile isWordChar)
    else (word, ' ' :: d :: rest)
  | _, rest => (word, rest)

mutual

/-- A value in at most `depth` levels of arrays and tables. The fuel bounds the number of steps. -/
def readValue? : Nat → Nat → List Char → Option (Value × List Char)
  | 0, _, _ => none
  | fuel + 1, depth, s =>
    match s with
    | [] => none
    | c :: rest =>
      if c = '"' ∨ c = '\'' then (readText? s).map fun (t, rest) => (.text (String.ofList t), rest)
      else if c = '[' then
        if depth = 0 then none
        else (readItems? fuel (depth - 1) rest).map fun (items, rest) => (.array items, rest)
      else if c = '{' then
        if depth = 0 then none
        else match skipSpace rest with
          | '}' :: rest => some (.table .inline [], rest)
          | rest => (readPairs? fuel (depth - 1) [] rest).map fun (t, rest) => (.table .inline t, rest)
      else
        let (word, rest) := readWord s
        (word? word).map (·, rest)

/-- The items of an array up to its closing bracket. A comma may follow the last one. -/
def readItems? : Nat → Nat → List Char → Option (List Value × List Char)
  | 0, _, _ => none
  | fuel + 1, depth, s =>
    match skipGaps false s with
    | ']' :: rest => some ([], rest)
    | s => do
      let (item, rest) ← readValue? fuel depth s
      match skipGaps false rest with
      | ',' :: rest =>
        let (items, rest) ← readItems? fuel depth rest
        some (item :: items, rest)
      | ']' :: rest => some ([item], rest)
      | _ => none

/-- One entry or more of a table between braces, added to those before. -/
def readPairs? : Nat → Nat → Table → List Char → Option (Table × List Char)
  | 0, _, _, _ => none
  | fuel + 1, depth, entries, s => do
    match ← readPath? s with
    | (keys, '=' :: rest) =>
      let (value, rest) ← readValue? fuel depth (skipSpace rest)
      let entries ← assign value true keys entries
      match skipSpace rest with
      | ',' :: rest => readPairs? fuel depth entries rest
      | '}' :: rest => some (entries, rest)
      | _ => none
    | _ => none

end

/-- A header or an entry, and the rest after the end of its line. -/
def readLine? (s : List Char) : Option (Line × List Char) := do
  let (line, rest) ← match s with
    | '[' :: '[' :: rest =>
      match ← readPath? rest with
      | (keys, ']' :: ']' :: rest) => some (Line.row keys, rest)
      | _ => none
    | '[' :: rest =>
      match ← readPath? rest with
      | (keys, ']' :: rest) => some (.header keys, rest)
      | _ => none
    | s =>
      match ← readPath? s with
      | (keys, '=' :: rest) =>
        let (value, rest) ← readValue? (rest.length + 1) depthLimit (skipSpace rest)
        some (.assign keys value, rest)
      | _ => none
  some (line, ← endLine? rest)

/-- The lines of a text that define something. -/
def readLines? : Nat → List Char → Option (List Line)
  | 0, _ => none
  | fuel + 1, s =>
    match skipGaps false s with
    | [] => some []
    | s => do
      let (line, rest) ← readLine? s
      some (line :: (← readLines? fuel rest))

/-- The table that a text holds. A byte order mark in front does not count. -/
def parse? (text : String) : Option Table :=
  let s := match text.toList with
    | c :: rest => if c.toNat = 0xFEFF then rest else c :: rest
    | [] => []
  (readLines? (s.length + 1) s).bind ofLines?

end TypeSchema.Toml
