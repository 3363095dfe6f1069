import LinearProgramming.Scalar

/-!
# Exact scalars

Rationals as an element type. They have no infinity: a value that no reasonable bound reaches stands
for it, and is an ordinary number everywhere else.
-/

namespace LinearProgramming

/-- The rational that stands for an infinite bound, `2 ^ 63 - 1`. -/
def sentinel : Rat := 9223372036854775807

/-- A rational in lowest terms, without a denominator of one. -/
def rationalText (q : Rat) : String :=
  if q.den = 1 then toString q.num else toString q.num ++ "/" ++ toString q.den

/-- The nearest double; the sentinels become the infinities that they stand for. -/
def rationalToDouble (q : Rat) : Binary :=
  if q = sentinel then .infinite false
  else if q = -sentinel then .infinite true
  else Format.double.round q

/-- The exact value of a double; the infinities become the sentinels, and what is no number zero. -/
def rationalOfDouble : Binary → Rat
  | .nan => 0
  | .infinite negative => if negative then -sentinel else sentinel
  | x@(.finite ..) => x.toRat?.getD 0

instance : Scalar Rat where
  zero := 0
  one := 1
  exact := true
  infinity := sentinel
  less x y := decide (x < y)
  same x y := decide (x = y)
  near x y := decide (x = y)
  ofInt n := n
  format := .double
  toDouble := rationalToDouble
  ofDouble := rationalOfDouble
  text := rationalText

end LinearProgramming
