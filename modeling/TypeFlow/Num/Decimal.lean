import TypeFlow.Num.Basic

/-!
# Decimal form of doubles

`Decimal.shortest` gives the fewest decimal digits that identify a double: it
looks at grids of one, two, up to seventeen digits and takes the first grid
that has a point inside the interval of rationals rounding to that double, the
nearer of two such points. Where a double goes that is as near to both is a
`Tie`. How the digits are laid out as text is a `NumberFormat`.

`Decimal.toNum` gives a double for a decimal. It rounds the digits and the
power of ten before it puts them together, so that it takes two or three
operations on doubles, and may miss the nearest double when there are more
digits than a double holds.
-/

namespace TypeFlow

/-- The decimal `coefficient * 10 ^ exponent`. -/
structure Decimal where
  /-- All the digits, without a point. -/
  coefficient : Nat
  /-- Power of ten of the last digit. -/
  exponent : Int
  deriving DecidableEq

namespace Decimal

/-- The rational that a decimal stands for. -/
def toRat (d : Decimal) : Rat :=
  d.coefficient * (10 : Rat) ^ d.exponent

/-- Digits of the coefficient, the most significant one first. -/
def digits (d : Decimal) : List Char :=
  Nat.toDigits 10 d.coefficient

/-- Position of the decimal point, counted from the first digit. -/
def point (d : Decimal) : Int :=
  d.digits.length + d.exponent

/-- Where a number goes that is as near to two decimals. -/
inductive Tie where
  /-- To the greater one. -/
  | up
  /-- To the one with an even last digit. -/
  | even
  deriving DecidableEq

/-- Whether the greater of two neighbours is taken, given the smaller one. -/
def Tie.takesNext (tie : Tie) (low : Int) : Bool :=
  match tie with
  | up => true
  | even => low % 2 = 1

/-- The exponent `e` with `10 ^ e ≤ q < 10 ^ (e + 1)`, for a positive double `q`. -/
def leadingPlace (q : Rat) : Int :=
  let guess := Binary64.magnitude q * 30103 / 100000
  if q < (10 : Rat) ^ guess then guess - 1
  else if (10 : Rat) ^ (guess + 1) ≤ q then guess + 1
  else guess

/-- Whether `x` rounds to the positive double `q`. Halfway points belong to the
double with the even coefficient; below a power of two the neighbour is nearer. -/
def roundsTo (q x : Rat) : Bool :=
  let unit := Binary64.quantum q
  let coefficient := (q / unit).floor
  let below := if coefficient = Binary64.leastFull ∧ Binary64.leastExponent < Binary64.lastPlace q
    then unit / 4 else unit / 2
  let above := unit / 2
  if coefficient % 2 = 0 then decide (q - below ≤ x ∧ x ≤ q + above)
  else decide (q - below < x ∧ x < q + above)

/-- The best point for `q` on the grid of a power of ten, if one rounds to it. -/
def onGrid (tie : Tie) (q : Rat) (exponent : Int) : Option Decimal :=
  let unit := (10 : Rat) ^ exponent
  let low := (q / unit).floor
  let down := roundsTo q (low * unit)
  let up := roundsTo q ((low + 1) * unit)
  let toLow := q - low * unit
  let toNext := (low + 1) * unit - q
  if up && (!down || toNext < toLow || (toNext = toLow && tie.takesNext low)) then
    some ⟨(low + 1).toNat, exponent⟩
  else if down then some ⟨low.toNat, exponent⟩
  else none

/-- Tries grids of growing fineness, the given number of them. -/
def searchGrids (tie : Tie) (q : Rat) : (tries : Nat) → (exponent : Int) → Decimal
  | 0, exponent => ⟨(q / (10 : Rat) ^ exponent).floor.toNat, exponent⟩
  | tries + 1, exponent =>
    match onGrid tie q exponent with
    | some d => d
    | none => searchGrids tie q tries (exponent - 1)

/-- The shortest decimal that rounds to the positive double `q`. The first grid
holds the power of ten above `q`, which may round to it. -/
def shortest (tie : Tie) (q : Rat) : Decimal :=
  searchGrids tie q 18 (leadingPlace q + 1)

/-- The greatest power of ten that is in the range of doubles. -/
def maxPower : Int := 308

/-- The double nearest to a power of ten. -/
def powerOfTen (n : Int) : Num := Num.ofRat ((10 : Rat) ^ n)

/-- The double for a decimal: the coefficient as a double, multiplied or divided by the power of
ten as a double. A power too small for one division takes two; beyond that nothing is left. -/
def toNum (d : Decimal) : Num :=
  let c := Num.ofRat d.coefficient
  if d.coefficient = 0 then 0
  else if maxPower < d.exponent then .posInf
  else if 0 ≤ d.exponent then c.mul (powerOfTen d.exponent)
  else if -maxPower ≤ d.exponent then c.div (powerOfTen (-d.exponent))
  else if -2 * maxPower ≤ d.exponent then
    (c.div (powerOfTen maxPower)).div (powerOfTen (-d.exponent - maxPower))
  else 0

end Decimal

/-- Decisions about the text of a finite number. -/
structure NumberFormat where
  /-- The positions of the point that are written without an exponent. -/
  positional : Int → Bool
  /-- What follows a whole number written without an exponent. -/
  wholeEnd : String
  /-- Where a number goes that is as near to two of its shortest texts. -/
  tie : Decimal.Tie

namespace NumberFormat

/-- A run of zeros. -/
def zeros (count : Nat) : List Char := List.replicate count '0'

/-- Digits with the point at its place and no exponent. -/
def positionalText (format : NumberFormat) (digits : List Char) (point : Int) : String :=
  let count : Int := digits.length
  if point ≤ 0 then "0." ++ String.ofList (zeros (-point).toNat ++ digits)
  else if count ≤ point then
    String.ofList (digits ++ zeros (point - count).toNat) ++ format.wholeEnd
  else
    String.ofList (digits.take point.toNat) ++ "." ++ String.ofList (digits.drop point.toNat)

/-- One digit before the point and a signed power of ten. -/
def exponentText (digits : List Char) (point : Int) : String :=
  let power := point - 1
  let fraction := match digits.drop 1 with
    | [] => ""
    | rest => "." ++ String.ofList rest
  let powerText := if power < 0 then "e-" ++ (-power).toNat.repr else "e+" ++ power.toNat.repr
  String.ofList (digits.take 1) ++ fraction ++ powerText

/-- Text of a positive double. -/
def positive (format : NumberFormat) (q : Rat) : String :=
  let d := Decimal.shortest format.tie q
  if format.positional d.point then format.positionalText d.digits d.point
  else exponentText d.digits d.point

/-- Text of a rational that is a double. -/
def text (format : NumberFormat) (q : Rat) : String :=
  if q = 0 then "0" ++ format.wholeEnd
  else if q < 0 then "-" ++ format.positive (-q)
  else format.positive q

/-- Numbers in type ids: never an exponent, nothing after a whole number, and
ties go up. -/
def typeId : NumberFormat := ⟨fun _ => true, "", .up⟩

/-- Numbers in data: always a fraction or an exponent, which very large and
very small numbers have, and ties go to the even digit. -/
def data : NumberFormat := ⟨fun point => decide (-5 < point ∧ point ≤ 16), ".0", .even⟩

end NumberFormat

/-- Text of a number in type ids. -/
def Num.text : Num → String
  | .nan => "NaN"
  | .negInf => "-inf"
  | .posInf => "inf"
  | .fin q => NumberFormat.typeId.text q

/-- A number as it was written down. Writing can tell a negative zero from
zero, though both have the same value. -/
inductive Written where
  /-- Zero with a minus sign. -/
  | minusZero
  | num (value : Num)
  deriving DecidableEq

namespace Written

/-- The number that was written. -/
def value : Written → Num
  | minusZero => 0
  | num n => n

/-- Its text, a minus sign of zero included. -/
def text : Written → String
  | minusZero => "-0"
  | num n => n.text

/-- Its text as data; only finite numbers have one. -/
def dataText : Written → Option String
  | minusZero => some "-0.0"
  | num (.fin q) => some (NumberFormat.data.text q)
  | num _ => none

end Written
end TypeFlow
