import TypeSchema.Text.Quoted

namespace TypeSchema

def isDigit (c : Char) : Bool := '0' ≤ c && c ≤ '9'

/-- The value of decimal digits. -/
def digitsValue (digits : List Char) : Nat :=
  digits.foldl (fun value c => 10 * value + (c.toNat - 48)) 0

/-- The value of digits in a base, if they are digits of it. -/
def ofDigits? (base : Nat) (digits : List Char) : Option Nat :=
  if digits.isEmpty then none
  else digits.foldlM (fun value c =>
    (Quoted.hexValue? c).bind fun d => if d < base then some (base * value + d) else none) 0

/-- A decimal as its digits and its exponent of ten. -/
structure Decimal where
  digits : Nat
  exponent : Int

/-- The exponent of ten that `e` marks; zero where nothing is marked. -/
def exponentOf? (s : List Char) : Option Int :=
  match s with
  | [] => some 0
  | e :: rest =>
    if e = 'e' then
      match rest with
      | '-' :: digits => (ofDigits? 10 digits).map fun n => -(n : Int)
      | '+' :: digits => (ofDigits? 10 digits).map fun n => (n : Int)
      | digits => (ofDigits? 10 digits).map fun n => (n : Int)
    else none

/-- A decimal with a digit on one side of its point at least. -/
def Decimal.ofChars? (s : List Char) : Option Decimal := do
  let whole := s.takeWhile isDigit
  let afterWhole := s.dropWhile isDigit
  let (fraction, rest) : List Char × List Char := match afterWhole with
    | '.' :: r => (r.takeWhile isDigit, r.dropWhile isDigit)
    | r => ([], r)
  let exponent ← exponentOf? rest
  let digits ← ofDigits? 10 (whole ++ fraction)
  some ⟨digits, exponent - fraction.length⟩

/-- The base that a literal names, and its digits. -/
def basedDigits? : List Char → Option (Nat × List Char)
  | '0' :: 'x' :: digits => some (16, digits)
  | '0' :: 'o' :: digits => some (8, digits)
  | '0' :: 'b' :: digits => some (2, digits)
  | _ => none

end TypeSchema
