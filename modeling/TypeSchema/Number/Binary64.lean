namespace TypeSchema

/-- Fifty-three bits, the first of them set unless the exponent is the least one: each number is written in
one way. -/
def Binary64.Canonical (mantissa : Nat) (exponent : Int) : Prop :=
  mantissa < Nat.pow 2 53 ∧ -1074 ≤ exponent ∧ exponent ≤ 971 ∧ (Nat.pow 2 52 ≤ mantissa ∨ exponent = -1074)

instance (mantissa : Nat) (exponent : Int) : Decidable (Binary64.Canonical mantissa exponent) := by
  unfold Binary64.Canonical
  infer_instance

/-- A finite binary64 number, kept exactly: `mantissa · 2 ^ exponent`, with its sign. -/
structure Binary64 where
  negative : Bool
  mantissa : Nat
  exponent : Int
  canonical : Binary64.Canonical mantissa exponent
deriving DecidableEq

/-- The nearest integer to `n / d`; a half goes to the even neighbour. -/
def roundHalfEven (n d : Nat) : Nat :=
  let rest := 2 * (n % d)
  if rest < d ∨ (rest = d ∧ n / d % 2 = 0) then n / d else n / d + 1

/-- How many decimal digits a number has; zero has none. -/
def decimalLength (n : Nat) : Nat :=
  if n = 0 then 0 else (Nat.toDigits 10 n).length

/-- Numerator and denominator of `n / d · base ^ exponent`. -/
def scaled (n d base : Nat) (exponent : Int) : Nat × Nat :=
  if 0 ≤ exponent then (n * Nat.pow base exponent.toNat, d) else (n, d * Nat.pow base (-exponent).toNat)

namespace Binary64

def zero (negative : Bool) : Binary64 := ⟨negative, 0, -1074, by decide⟩

def isZero (x : Binary64) : Bool := x.mantissa == 0

def of? (negative : Bool) (mantissa : Nat) (exponent : Int) : Option Binary64 :=
  if h : Canonical mantissa exponent then some ⟨negative, mantissa, exponent, h⟩ else none

/-- The `k` with `2 ^ k ≤ n / d < 2 ^ (k + 1)`, for positive `n` and `d`. -/
def binaryOrder (n d : Nat) : Int :=
  let guess : Int := (n.log2 : Int) - d.log2
  let (n', d') := scaled n d 2 (-guess)
  if d' ≤ n' then guess else guess - 1

/-- The nearest number to `n / d`, for positive `n` and `d`; none if that is beyond the largest one. -/
def ofRatio? (negative : Bool) (n d : Nat) : Option Binary64 :=
  let exponent := max (-1074) (binaryOrder n d - 52)
  let (n', d') := scaled n d 2 (-exponent)
  let mantissa := roundHalfEven n' d'
  if mantissa = Nat.pow 2 53 then of? negative (Nat.pow 2 52) (exponent + 1) else of? negative mantissa exponent

/-- The nearest number to `digits · 10 ^ exponent`; none if that is beyond the largest one. -/
def ofDecimal? (negative : Bool) (digits : Nat) (exponent : Int) : Option Binary64 :=
  let order := decimalLength digits + exponent
  if digits = 0 ∨ order < -330 then some (zero negative)
  else if 310 < order then none
  else
    let (n, d) := scaled digits 1 10 exponent
    ofRatio? negative n d

/-- The integer that a number equals, if it equals one. -/
def toInt? (x : Binary64) : Option Int :=
  let (n, d) := scaled x.mantissa 1 2 x.exponent
  if n % d = 0 then some (if x.negative then -(n / d : Nat) else (n / d : Nat)) else none

/-- Equality of values: the two zeros are one value. -/
def sameValue (x y : Binary64) : Bool := (x.isZero && y.isZero) || x == y

end Binary64

end TypeSchema
