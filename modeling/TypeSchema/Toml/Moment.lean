import TypeSchema.Number.Digits

namespace TypeSchema.Toml

/-- A number of two digits from `low` to `high`. -/
def isPair (low high : Nat) (a b : Char) : Bool :=
  isDigit a && isDigit b && low ≤ digitsValue [a, b] && digitsValue [a, b] ≤ high

def isLeap (year : Nat) : Bool := year % 4 = 0 && (year % 100 ≠ 0 || year % 400 = 0)

def daysIn (year month : Nat) : Nat :=
  if month = 2 then (if isLeap year then 29 else 28)
  else if month ∈ [4, 6, 9, 11] then 30 else 31

/-- The distance from the zero meridian: `Z`, or hours and minutes with a sign. -/
def isOffset : List Char → Bool
  | [z] => z = 'Z' || z = 'z'
  | [sign, h, h', colon, m, m'] =>
    (sign = '+' || sign = '-') && isPair 0 23 h h' && colon = ':' && isPair 0 59 m m'
  | _ => false

/-- What may follow whole seconds: a fraction, and where it is admitted an offset. -/
def isAfterSeconds (withOffset : Bool) (s : List Char) : Bool :=
  let rest? := match s with
    | '.' :: digits => if (digits.takeWhile isDigit).isEmpty then none else some (digits.dropWhile isDigit)
    | _ => some s
  match rest? with
  | some rest => rest.isEmpty || (withOffset && isOffset rest)
  | none => false

/-- A time of day; a minute may have a sixty-first second. -/
def isTime (withOffset : Bool) : List Char → Bool
  | h :: h' :: ':' :: m :: m' :: ':' :: s :: s' :: rest =>
    isPair 0 23 h h' && isPair 0 59 m m' && isPair 0 60 s s' && isAfterSeconds withOffset rest
  | _ => false

/-- A date, and what stands after it. -/
def afterDate? : List Char → Option (List Char)
  | a :: b :: c :: d :: '-' :: m :: m' :: '-' :: e :: e' :: rest =>
    if [a, b, c, d].all isDigit && isPair 1 12 m m' &&
        isPair 1 (daysIn (digitsValue [a, b, c, d]) (digitsValue [m, m'])) e e' then
      some rest
    else none
  | _ => none

def isMoment (s : List Char) : Bool :=
  match afterDate? s with
  | some [] => true
  | some (mark :: rest) => (mark = 'T' || mark = 't' || mark = ' ') && isTime true rest
  | none => isTime false s

end TypeSchema.Toml
