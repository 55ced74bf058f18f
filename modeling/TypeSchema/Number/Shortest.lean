import TypeSchema.Number.Binary64

namespace TypeSchema.Binary64

/-- A positive number and the reals that round to it, over the common denominator `unit`. -/
structure Interval where
  low : Nat
  value : Nat
  high : Nat
  unit : Nat
  /-- A tie goes to the even mantissa, so the ends belong to an even one. -/
  closed : Bool

/-- The reals nearer to a number than to its neighbours. Below a power of two the neighbour is half as far
away. -/
def interval (x : Binary64) : Interval :=
  let below := if x.mantissa = Nat.pow 2 52 ∧ -1074 < x.exponent then 1 else 2
  let (factor, unit) := scaled 1 1 2 (x.exponent - 2)
  { low := (4 * x.mantissa - below) * factor
    value := 4 * x.mantissa * factor
    high := (4 * x.mantissa + 2) * factor
    unit
    closed := x.mantissa % 2 == 0 }

/-- The `k` with `10 ^ k ≤ n / d < 10 ^ (k + 1)`, for positive `n` and `d`. -/
def decimalOrder (n d : Nat) : Int :=
  if d ≤ n then (decimalLength (n / d) : Int) - 1 else -(decimalLength ((d - 1) / n) : Int)

/-- The point of the grid of multiples of `10 ^ scale` that lies in the interval; of two the nearer to its
value, and of two equally near the even one. -/
def gridPoint? (i : Interval) (scale : Int) : Option Nat :=
  let (value, unit) := scaled i.value i.unit 10 (-scale)
  let (low, _) := scaled i.low i.unit 10 (-scale)
  let (high, _) := scaled i.high i.unit 10 (-scale)
  let inside (q : Nat) : Bool :=
    if i.closed then low ≤ q * unit && q * unit ≤ high else low < q * unit && q * unit < high
  let down := value / unit
  match inside down, inside (down + 1) with
  | true, true => some (roundHalfEven value unit)
  | true, false => some down
  | false, true => some (down + 1)
  | false, false => none

/-- The digits without the zeros at their end, each of which raises the exponent by one. -/
def withoutZeros (digits : Nat) (exponent : Int) : Nat × Int :=
  let zeros := ((Nat.toDigits 10 digits).reverse.takeWhile (· == '0')).length
  (digits / Nat.pow 10 zeros, exponent + zeros)

/-- Digits `d` and exponent `k` such that `d · 10 ^ k` rounds to the number; no shorter digits do. Seventeen
digits always suffice. -/
def shortest (x : Binary64) : Nat × Int :=
  let i := x.interval
  let order := decimalOrder i.value i.unit
  let found : Option (Nat × Int) := (List.range 17).findSome? fun (length : Nat) =>
    (gridPoint? i (order - length)).map fun digits => withoutZeros digits (order - length)
  found.getD (0, 0)

end TypeSchema.Binary64
