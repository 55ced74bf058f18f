import TypeSchema.Json.Basic
import TypeSchema.Number.Digits
import TypeSchema.Number.Scaling
import TypeSchema.Text.Quoted

namespace TypeSchema.Json

/-- Blank inside JSON text. -/
def isGap (c : Char) : Bool := c == ' ' || c == '\n' || c == '\t' || c == '\r'

def skipGap (s : List Char) : List Char := s.dropWhile isGap

/-- The character of a code point that is no surrogate. -/
def scalar? (code : Nat) : Option Char :=
  if code < 0xD800 ∨ (0xDFFF < code ∧ code < 0x110000) then some (Char.ofNat code) else none

/-- What the character after a backslash stands for, `u` apart. -/
def shortEscape? : Char → Option Char
  | '"' => some '"'
  | '\\' => some '\\'
  | '/' => some '/'
  | 'b' => some (Char.ofNat 8)
  | 'f' => some (Char.ofNat 12)
  | 'n' => some '\n'
  | 'r' => some '\r'
  | 't' => some '\t'
  | _ => none

/-- A text up to its closing quote, and the rest after it. A surrogate counts only as half of a pair. -/
def readString? : List Char → Option (List Char × List Char)
  | [] => none
  | '"' :: rest => some ([], rest)
  | '\\' :: 'u' :: a :: b :: c :: d :: rest => do
    let unit ← Quoted.hexNumber? [a, b, c, d]
    if 0xD800 ≤ unit ∧ unit < 0xDC00 then
      match rest with
      | '\\' :: 'u' :: e :: f :: g :: h :: rest =>
        let low ← Quoted.hexNumber? [e, f, g, h]
        if 0xDC00 ≤ low ∧ low < 0xE000 then
          let char ← scalar? (0x10000 + (unit - 0xD800) * 0x400 + (low - 0xDC00))
          let (s, rest) ← readString? rest
          some (char :: s, rest)
        else none
      | _ => none
    else
      let char ← scalar? unit
      let (s, rest) ← readString? rest
      some (char :: s, rest)
  | '\\' :: c :: rest => do
    let char ← shortEscape? c
    let (s, rest) ← readString? rest
    some (char :: s, rest)
  | c :: rest =>
    if c.toNat < 32 ∨ c = '\\' then none
    else (readString? rest).map fun (s, rest) => (c :: s, rest)

/-- An exponent with its mark, if one stands here; zero without a mark. -/
def readExponent? : List Char → Option (Int × List Char)
  | c :: rest =>
    if c = 'e' ∨ c = 'E' then
      let (negative, rest) : Bool × List Char := match rest with
        | '-' :: r => (true, r)
        | '+' :: r => (false, r)
        | r => (false, r)
      let digits := rest.takeWhile isDigit
      if digits.isEmpty then none
      else
        let value : Int := digitsValue digits
        some (if negative then -value else value, rest.dropWhile isDigit)
    else some (0, c :: rest)
  | [] => some (0, [])

/-- The digits after a point, if one stands here. -/
def readFraction? : List Char → Option (List Char × List Char)
  | '.' :: rest =>
    let digits := rest.takeWhile isDigit
    if digits.isEmpty then none else some (digits, rest.dropWhile isDigit)
  | rest => some ([], rest)

/-- A number as it is written. -/
structure NumberText where
  negative : Bool
  whole : List Char
  fraction : List Char
  exponent : Int
  /-- There is neither a point nor an exponent mark. -/
  isWhole : Bool

def readNumberText? (s : List Char) : Option (NumberText × List Char) := do
  let (negative, s) : Bool × List Char := match s with
    | '-' :: r => (true, r)
    | r => (false, r)
  let whole := s.takeWhile isDigit
  if whole.isEmpty ∨ (whole.head? = some '0' ∧ 1 < whole.length) then none
  let afterWhole := s.dropWhile isDigit
  let (fraction, afterFraction) ← readFraction? afterWhole
  let (exponent, rest) ← readExponent? afterFraction
  some (⟨negative, whole, fraction, exponent, rest.length = afterWhole.length⟩, rest)

/-- The value with digits added as long as it keeps to sixty-four bits, and the digits that are left. -/
def fillWord (value : Nat) : List Char → Nat × List Char
  | [] => (value, [])
  | c :: rest =>
    let more := 10 * value + (c.toNat - 48)
    if more < Nat.pow 2 64 then fillWord more rest else (value, c :: rest)

/-- The integers that stay integers: those of sixty-four bits, with or without sign. -/
def isWordSized (n : Int) : Bool := -(Nat.pow 2 63 : Int) ≤ n && n < Nat.pow 2 64

/-- The number that is written. A point, an exponent mark, a negative zero and an integer of too many bits make it
a float; of its digits those count that fill sixty-four bits. -/
def NumberText.value? (t : NumberText) : Option Number :=
  let value : Int := if t.negative then -(digitsValue t.whole : Int) else digitsValue t.whole
  if t.isWhole ∧ isWordSized value ∧ ¬(t.negative ∧ value = 0) then some (.integer value)
  else
    let (whole, wholeLeft) := fillWord 0 t.whole
    let (digits, fractionLeft) := fillWord whole t.fraction
    (Binary64.byScaling? t.negative digits
      (wholeLeft.length + fractionLeft.length - t.fraction.length + t.exponent)).map .float

def readNumber? (s : List Char) : Option (Number × List Char) := do
  let (text, rest) ← readNumberText? s
  some (← text.value?, rest)

/-- The word at the start of the text, and the rest. -/
def readWord? (s : List Char) : Option (Json × List Char) :=
  (([("null", null), ("true", bool true), ("false", bool false)] : Entries Json).findSome?
    fun (word, value) => (word.toList.isPrefixOf? s).map (value, ·))

mutual

/-- A value in at most `depth` levels of containers. The fuel bounds the number of steps. -/
def readValue? : Nat → Nat → List Char → Option (Json × List Char)
  | 0, _, _ => none
  | fuel + 1, depth, s =>
    match skipGap s with
    | '"' :: rest => (readString? rest).map fun (s, rest) => (string (String.ofList s), rest)
    | '[' :: rest =>
      if depth = 0 then none
      else match skipGap rest with
        | ']' :: rest => some (array [], rest)
        | rest => (readItems? fuel (depth - 1) rest).map fun (items, rest) => (array items, rest)
    | '{' :: rest =>
      if depth = 0 then none
      else match skipGap rest with
        | '}' :: rest => some (object [], rest)
        | rest => (readFields? fuel (depth - 1) rest).map fun (fields, rest) => (object fields, rest)
    | c :: rest =>
      if c = '-' ∨ isDigit c then (readNumber? (c :: rest)).map fun (n, rest) => (number n, rest)
      else readWord? (c :: rest)
    | [] => none

/-- One item or more, up to the closing bracket. -/
def readItems? : Nat → Nat → List Char → Option (List Json × List Char)
  | 0, _, _ => none
  | fuel + 1, depth, s => do
    let (item, rest) ← readValue? fuel depth s
    match skipGap rest with
    | ',' :: rest =>
      let (items, rest) ← readItems? fuel depth rest
      some (item :: items, rest)
    | ']' :: rest => some ([item], rest)
    | _ => none

/-- One field or more, up to the closing brace. Repeated names are kept; `distinct` settles them. -/
def readFields? : Nat → Nat → List Char → Option (List (String × Json) × List Char)
  | 0, _, _ => none
  | fuel + 1, depth, s =>
    match skipGap s with
    | '"' :: rest => do
      let (name, rest) ← readString? rest
      match skipGap rest with
      | ':' :: rest =>
        let (value, rest) ← readValue? fuel depth rest
        match skipGap rest with
        | ',' :: rest =>
          let (fields, rest) ← readFields? fuel depth rest
          some ((String.ofList name, value) :: fields, rest)
        | '}' :: rest => some ([(String.ofList name, value)], rest)
        | _ => none
      | _ => none
    | _ => none

end

/-- How deep containers may stand inside one another. -/
def depthLimit : Nat := 127

/-- The value that a text holds, with nothing but blanks around it. -/
def parse? (text : String) : Option Json :=
  let s := text.toList
  match readValue? (s.length + 1) depthLimit s with
  | some (value, rest) => if (skipGap rest).isEmpty then some value else none
  | none => none

end TypeSchema.Json
