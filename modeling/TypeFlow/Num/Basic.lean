import TypeFlow.Num.Binary64

/-!
# Extended numbers

The numbers that types speak about: rationals, the two infinities, and the one
value that is not a number. There is a single zero. The order is linear, with
the value that is not a number above everything and equal to itself. Sums,
products and quotients are rounded once, as doubles are.
-/

namespace TypeFlow

/-- A number of the type language. -/
inductive Num where
  /-- Below every rational. -/
  | negInf
  /-- A rational number. -/
  | fin (value : Rat)
  /-- Above every rational. -/
  | posInf
  /-- The result of an operation that has no number for an answer. -/
  | nan
  deriving DecidableEq

namespace Num

instance : Inhabited Num := ⟨nan⟩

/-- Natural numbers are numbers. -/
instance (n : Nat) : OfNat Num n := ⟨fin n⟩

/-- Integers are numbers. -/
def ofInt (n : Int) : Num := fin n

/-- The double nearest to a rational; sizes beyond the doubles are infinite. -/
def ofRat (q : Rat) : Num :=
  let r := Binary64.nearest q
  if Binary64.limit ≤ r then posInf
  else if r ≤ -Binary64.limit then negInf
  else fin r

/-- Linear order: rationals between the infinities, `nan` on top. -/
def le : Num → Num → Bool
  | _, nan => true
  | nan, _ => false
  | negInf, _ => true
  | _, negInf => false
  | _, posInf => true
  | posInf, _ => false
  | fin a, fin b => decide (a ≤ b)

instance : LE Num := ⟨fun a b => a.le b = true⟩
instance : LT Num := ⟨fun a b => b.le a = false⟩
instance : DecidableLE Num := fun a b => inferInstanceAs (Decidable (a.le b = true))
instance : DecidableLT Num := fun a b => inferInstanceAs (Decidable (b.le a = false))
instance : Min Num := minOfLe
instance : Max Num := maxOfLe

/-- Three-way form of the order. -/
def compare (a b : Num) : Ordering :=
  if a.le b then (if b.le a then .eq else .lt) else .gt

/-- Whether this is the value that is not a number. -/
def isNan : Num → Bool
  | nan => true
  | _ => false

/-- Whether this is a rational. -/
def isFinite : Num → Bool
  | fin _ => true
  | _ => false

/-- Whether this is one of the infinities. -/
def isInfinite : Num → Bool
  | negInf | posInf => true
  | _ => false

/-- Integers and the two infinities count as whole. -/
def isWhole : Num → Bool
  | negInf | posInf => true
  | fin q => decide (q.den = 1)
  | nan => false

/-- The sign as -1, 0 or 1; 0 for `nan`. -/
def sign : Num → Int
  | negInf => -1
  | posInf => 1
  | fin q => if q < 0 then -1 else if 0 < q then 1 else 0
  | nan => 0

/-- The infinity of a sign; no number when the sign is 0. -/
def infinite (sign : Int) : Num :=
  if sign < 0 then negInf else if 0 < sign then posInf else nan

/-- Negation. -/
def neg : Num → Num
  | negInf => posInf
  | posInf => negInf
  | fin q => fin (-q)
  | nan => nan

/-- Sum; opposite infinities have none. -/
def add : Num → Num → Num
  | fin a, fin b => ofRat (a + b)
  | nan, _ | _, nan => nan
  | negInf, posInf | posInf, negInf => nan
  | negInf, _ | _, negInf => negInf
  | posInf, _ | _, posInf => posInf

/-- Difference. -/
def sub (a b : Num) : Num := a.add b.neg

/-- Product; zero times an infinity has none. -/
def mul : Num → Num → Num
  | fin a, fin b => ofRat (a * b)
  | nan, _ | _, nan => nan
  | a, b => infinite (a.sign * b.sign)

/-- Quotient; nothing can be divided by zero, nor an infinity by an infinity. -/
def div : Num → Num → Num
  | fin a, fin b => if b = 0 then nan else ofRat (a / b)
  | nan, _ | _, nan => nan
  | fin _, _ => 0
  | a, fin b => infinite (a.sign * (fin b).sign)
  | _, _ => nan

/-- Largest whole number that is not above. -/
def floor : Num → Num
  | fin q => ofInt q.floor
  | x => x

/-- Smallest whole number that is not below. -/
def ceil : Num → Num
  | fin q => ofInt q.ceil
  | x => x

/-- Nearest whole number, a half going away from zero. -/
def round : Num → Num
  | fin q => ofInt (if q < 0 then (q - 1 / 2).ceil else (q + 1 / 2).floor)
  | x => x

/-- The smaller operand, or the one that is a number. -/
def lesser (a b : Num) : Num :=
  if a.isNan then b else if b.isNan then a else min a b

/-- The larger operand, or the one that is a number. -/
def greater (a b : Num) : Num :=
  if a.isNan then b else if b.isNan then a else max a b

end Num
end TypeFlow
