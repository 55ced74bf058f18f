import TypeSchema.Number.Binary64

namespace TypeSchema.Binary64

def ofNat? (n : Nat) : Option Binary64 :=
  if n = 0 then some (zero false) else ofRatio? false n 1

/-- The nearest number to the product; none if that is beyond the largest one. -/
def mul? (x y : Binary64) : Option Binary64 :=
  let negative := x.negative != y.negative
  if x.isZero || y.isZero then some (zero negative)
  else
    let (n, d) := scaled (x.mantissa * y.mantissa) 1 2 (x.exponent + y.exponent)
    ofRatio? negative n d

/-- The nearest number to the quotient; none if that is beyond the largest one, or `y` is zero. -/
def div? (x y : Binary64) : Option Binary64 :=
  let negative := x.negative != y.negative
  if y.isZero then none
  else if x.isZero then some (zero negative)
  else
    let (n, d) := scaled x.mantissa y.mantissa 2 (x.exponent - y.exponent)
    ofRatio? negative n d

def withSign (negative : Bool) (x : Binary64) : Binary64 := { x with negative }

/-- The exponent of the largest power of ten that is not beyond the largest number. -/
def greatestPower : Nat := 308

/-- `x` divided by the `k`-th power of ten, in steps of at most the greatest power. -/
def lower? (x : Binary64) (k : Nat) : Option Binary64 := do
  if k ≤ greatestPower then x.div? (← ofNat? (Nat.pow 10 k))
  else if x.isZero then some x
  else (← x.div? (← ofNat? (Nat.pow 10 greatestPower))).lower? (k - greatestPower)
termination_by k
decreasing_by simp only [greatestPower] at *; omega

/-- `x` multiplied by the `k`-th power of ten. -/
def raise? (x : Binary64) (k : Nat) : Option Binary64 := do
  if k ≤ greatestPower then x.mul? (← ofNat? (Nat.pow 10 k))
  else if x.isZero then some x
  else none

/-- The number that `digits · 10 ^ exponent` scales to; none if that is beyond the largest one. Every step rounds, so
it may miss the nearest number by a unit in its last place. -/
def byScaling? (negative : Bool) (digits : Nat) (exponent : Int) : Option Binary64 := do
  let x ← ofNat? digits
  let y ← if 0 ≤ exponent then x.raise? exponent.toNat else x.lower? (-exponent).toNat
  some (y.withSign negative)

end TypeSchema.Binary64
