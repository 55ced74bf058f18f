import TypeSchema.Number.Shortest

namespace TypeSchema

inductive Number
  | integer (value : Int)
  | float (value : Binary64)
deriving DecidableEq

namespace Number

/-- Equality of values within a kind; an integer never equals a float. -/
def same : Number → Number → Bool
  | integer m, integer n => m == n
  | float x, float y => x.sameValue y
  | _, _ => false

/-- The decimal digits of a number, most significant first. -/
def digits (n : Nat) : List Char := Nat.toDigits 10 n

def integerText (n : Int) : List Char :=
  if n < 0 then '-' :: digits n.natAbs else digits n.natAbs

/-- Where plain figures end: the exponents of ten that are written without an exponent mark. -/
structure PlainRange where
  least : Int
  greatest : Int

/-- From `0.00001` to `9999999999999999.0`. -/
def plainRange : PlainRange := ⟨-5, 15⟩

/-- Plain figures with at least one digit on either side of the point. -/
def plainText (figures : List Char) (exponent : Int) : List Char :=
  if 0 ≤ exponent then figures ++ List.replicate exponent.toNat '0' ++ ['.', '0']
  else
    let places := (-exponent).toNat
    if places < figures.length then
      figures.take (figures.length - places) ++ '.' :: figures.drop (figures.length - places)
    else ['0', '.'] ++ List.replicate (places - figures.length) '0' ++ figures

/-- One digit before the point, and the exponent with its sign. -/
def scientificText (figures : List Char) (order : Int) : List Char :=
  figures.take 1 ++ (if figures.length ≤ 1 then [] else '.' :: figures.drop 1) ++
    ['e', if order < 0 then '-' else '+'] ++ digits order.natAbs

def floatText (x : Binary64) : List Char :=
  let sign := if x.negative then ['-'] else []
  if x.isZero then sign ++ ['0', '.', '0']
  else
    let (value, exponent) := x.shortest
    let figures := digits value
    let order := exponent + figures.length - 1
    if plainRange.least ≤ order ∧ order ≤ plainRange.greatest then sign ++ plainText figures exponent
    else sign ++ scientificText figures order

def text : Number → String
  | integer n => String.ofList (integerText n)
  | float x => String.ofList (floatText x)

end Number

end TypeSchema
