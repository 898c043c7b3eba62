/-!
# Rounding to doubles

A double is a rational `m * 2 ^ k` whose coefficient has at most 53 binary
digits and whose exponent is at least -1074. Arithmetic on doubles is exact
arithmetic on rationals followed by one rounding to the nearest double, a half
going to the even coefficient. Everything here is a function on rationals, so
a statement about rounding is a statement about rational numbers.
-/

namespace TypeFlow.Binary64

/-- Binary digits in the coefficient of a double. -/
def precision : Int := 53

/-- Exponent of the smallest positive double. -/
def leastExponent : Int := -1074

/-- Rationals of at least this size have no double near them. -/
def limit : Rat := (2 : Rat) ^ (1024 : Int)

/-- The least coefficient of 53 binary digits. -/
def leastFull : Int := 4503599627370496

/-- Size of a rational, without its sign. -/
def size (q : Rat) : Rat :=
  if q < 0 then -q else q

/-- The exponent `e` with `2 ^ e ≤ q < 2 ^ (e + 1)`, for positive `q`. -/
def magnitude (q : Rat) : Int :=
  let guess : Int := (Nat.log2 q.num.natAbs : Int) - (Nat.log2 q.den : Int)
  if q < (2 : Rat) ^ guess then guess - 1 else guess

/-- Exponent of the last binary digit that a double near `q` can hold. -/
def lastPlace (q : Rat) : Int :=
  max (magnitude (size q) - (precision - 1)) leastExponent

/-- Distance between neighbouring doubles around `q`. -/
def quantum (q : Rat) : Rat :=
  (2 : Rat) ^ lastPlace q

/-- The nearest integer, a half going to the even one. -/
def roundHalfEven (q : Rat) : Int :=
  let below := q.floor
  let rest := q - below
  if rest < 1 / 2 then below
  else if 1 / 2 < rest then below + 1
  else if below % 2 = 0 then below
  else below + 1

/-- The nearest multiple of the quantum, the range of doubles left open above. -/
def nearest (q : Rat) : Rat :=
  if q = 0 then 0 else roundHalfEven (q / quantum q) * quantum q

/-- Zero is a double. -/
theorem nearest_zero : nearest 0 = 0 := by
  simp [nearest]

end TypeFlow.Binary64
