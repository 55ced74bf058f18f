import TypeSchema.Number.Basic
import TypeSchema.Number.Digits
import TypeSchema.Syntax.Lexer
import TypeSchema.Text.Blank
import TypeSchema.Text.Quoted

namespace TypeSchema.Literal

/-- The text between quotes, or the whole text if it has none. -/
def insideQuotes (s : List Char) : List Char :=
  match s with
  | open_ :: rest =>
    match rest.getLast? with
    | some close =>
      if (open_ = '"' ∨ open_ = '\'') ∧ (close = '"' ∨ close = '\'') then rest.dropLast else s
    | none => s
  | [] => []

/-- The digits behind a plus sign, which is allowed in front of them. -/
def withoutPlus : List Char → List Char
  | '+' :: digits => digits
  | digits => digits

/-- The character of hexadecimal digits, if they stand for one. -/
def charOfHex (digits : List Char) : List Char :=
  if (withoutPlus digits).isEmpty then []
  else
    match Quoted.hexNumber? (withoutPlus digits) with
    | some code =>
      if code < 0xD800 ∨ (0xDFFF < code ∧ code < 0x110000) then [Char.ofNat code] else []
    | none => []

/-- What a single character after a backslash stands for. -/
def simpleEscape (c : Char) : List Char :=
  if c = 'n' then ['\n']
  else if c = 'r' then ['\r']
  else if c = 't' then ['\t']
  else if c = 'b' then [Char.ofNat 8]
  else if c = 'f' then [Char.ofNat 12]
  else if c = 'v' then [Char.ofNat 11]
  else if c = '0' then [Char.ofNat 0]
  else if c = '\n' then []
  else [c]

/-- Where a text of escapes stands: between characters, or inside an escape of which `digits` were read. -/
inductive EscapeState
  | plain
  | escape
  /-- A number of digits that is fixed, of which so many are still to come. -/
  | fixed (left : Nat) (digits : List Char)
  /-- After the letter of an escape by code point. -/
  | unicode
  | braced (digits : List Char)

/-- The text with its escapes resolved. An escape that stands for no character yields none, and a backslash
at the end stands for itself. -/
def unescape : EscapeState → List Char → List Char
  | .plain, [] => []
  | .escape, [] => ['\\']
  | .unicode, [] => []
  | .fixed _ digits, [] => charOfHex digits
  | .braced digits, [] => charOfHex digits
  | .plain, c :: rest => if c = '\\' then unescape .escape rest else c :: unescape .plain rest
  | .escape, c :: rest =>
    if c = 'x' then unescape (.fixed 1 []) rest
    else if c = 'u' then unescape .unicode rest
    else simpleEscape c ++ unescape .plain rest
  | .unicode, c :: rest =>
    if c = '{' then unescape (.braced []) rest else unescape (.fixed 2 [c]) rest
  | .fixed 0 digits, c :: rest => charOfHex (digits ++ [c]) ++ unescape .plain rest
  | .fixed (left + 1) digits, c :: rest => unescape (.fixed left (digits ++ [c])) rest
  | .braced digits, c :: rest =>
    if c = '}' then charOfHex digits ++ unescape .plain rest
    else unescape (.braced (digits ++ [c])) rest

/-- The value of a string literal. -/
def unquote (text : String) : String :=
  String.ofList (unescape .plain (insideQuotes text.toList))

def signed (negative : Bool) (n : Nat) : Int := if negative then -(n : Int) else n

/-- A float that equals an integer of fifty-three bits is that integer. -/
def ofBinary64 (x : Binary64) : Number :=
  match x.toInt? with
  | some n => if n.natAbs < Nat.pow 2 53 then .integer n else .float x
  | none => .float x

/-- The value of a numeric literal. An integer of sixty-three bits stays exact. -/
def number? (text : String) (negative : Bool) : Option Number :=
  let s := (text.toList.filter (· != '_')).map Char.toLower
  match basedDigits? s with
  | some (base, digits) =>
    (ofDigits? base digits).bind fun n =>
      if n < Nat.pow 2 63 then some (.integer (signed negative n)) else none
  | none =>
    match (ofDigits? 10 s).filter (· < Nat.pow 2 63) with
    | some n => some (.integer (signed negative n))
    | none => do
      let d ← Decimal.ofChars? s
      let x ← Binary64.ofDecimal? negative d.digits d.exponent
      some (ofBinary64 x)

end TypeSchema.Literal
