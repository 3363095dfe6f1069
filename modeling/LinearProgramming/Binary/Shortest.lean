import LinearProgramming.Binary

/-!
# Shortest decimal text

The text of a floating-point number: the fewest decimal digits that round back to it, and of those
the nearest to its value, written out in full without an exponent.

* `Format.shortest`: digits and decimal exponent of a finite number.
* `Format.text`: its text, also of infinities and of what is no number.
-/

namespace LinearProgramming

/-- A positive decimal number, `digits * 10 ^ exponent`. -/
structure Decimal where
  digits : Nat
  exponent : Int
deriving DecidableEq, Repr

namespace Decimal

/-- The digits at their places: zeros fill the gap to the decimal point on either side. -/
def text (d : Decimal) : String :=
  let s := toString d.digits
  if 0 ≤ d.exponent then s ++ String.ofList (List.replicate d.exponent.toNat '0')
  else
    let places := (-d.exponent).toNat
    if places < s.length then
      String.ofList (s.toList.take (s.length - places)) ++ "." ++
        String.ofList (s.toList.drop (s.length - places))
    else "0." ++ String.ofList (List.replicate (places - s.length) '0') ++ s

/-- Moves a final zero digit into the exponent. -/
def trim (d : Decimal) : Decimal :=
  if d.digits % 10 = 0 then ⟨d.digits / 10, d.exponent + 1⟩ else d

/-- The least `k` with `num / den < 10 ^ k`, for positive arguments, found by trying the exponents
from a bound given by the number of bits. -/
def magnitude (num den : Nat) : Int :=
  let bound := num.log2 + den.log2 + 2
  let below (k : Int) : Bool := num * Nat.pow 10 (-k).toNat < den * Nat.pow 10 k.toNat
  let start : Int :=
    if num < den then -(((den.log2 - num.log2) * 31 / 100 : Nat) : Int) - 1
    else (((num.log2 - den.log2) * 30 / 100 : Nat) : Int) - 1
  ((List.range bound).findSome? fun (i : Nat) =>
    if below (start + i) then some (start + i) else none).getD start

end Decimal

/-- The numbers that round to one value, with the value itself: `low / den`, `mid / den` and
`high / den`; the ends belong to it if `closed`. -/
structure RoundingInterval where
  low : Nat
  mid : Nat
  high : Nat
  den : Nat
  closed : Bool

namespace RoundingInterval

/-- The decimal number `digits * 10 ^ exponent` lies in the interval. -/
def contains (r : RoundingInterval) (d : Decimal) : Bool :=
  let point := d.digits * Nat.pow 10 d.exponent.toNat * r.den
  let scale := Nat.pow 10 (-d.exponent).toNat
  if r.closed then decide (r.low * scale ≤ point) && decide (point ≤ r.high * scale)
  else decide (r.low * scale < point) && decide (point < r.high * scale)

/-- The neighbour of the value on the grid of step `10 ^ k` that lies in the interval; of two, the
nearer, and the upper one if both are as near. -/
def onGrid? (r : RoundingInterval) (k : Int) : Option Decimal :=
  let num := r.mid * Nat.pow 10 (-k).toNat
  let den := r.den * Nat.pow 10 k.toNat
  let down : Decimal := ⟨num / den, k⟩
  let up : Decimal := ⟨num / den + 1, k⟩
  match r.contains down, r.contains up with
  | true, true => some (if 2 * (num % den) < den then down else up)
  | true, false => some down
  | false, true => some up
  | false, false => none

end RoundingInterval

namespace Format

/-- The interval of numbers that round to `m * 2 ^ e`. Below a power of two the next smaller value
is half as far away. -/
def interval (f : Format) (m : Nat) (e : Int) : RoundingInterval :=
  let gap := if m = f.place ∧ f.minExponent < e then 1 else 2
  let scale := Nat.pow 2 (e - 2).toNat
  { low := (4 * m - gap) * scale
    mid := 4 * m * scale
    high := (4 * m + 2) * scale
    den := Nat.pow 2 (2 - e).toNat
    closed := m % 2 == 0 }

/-- The most digits that a value of the format needs. -/
def maxDigits (f : Format) : Nat := f.precision * 3 / 10 + 2

/-- The shortest decimal number that rounds to `m * 2 ^ e`, for a positive significand. -/
def shortest (f : Format) (m : Nat) (e : Int) : Decimal :=
  let r := f.interval m e
  let top := Decimal.magnitude r.mid r.den
  let found := (List.range f.maxDigits).findSome? fun (n : Nat) => r.onGrid? (top - 1 - n)
  (found.getD ⟨m * Nat.pow 2 e.toNat, 0⟩).trim

/-- The text of a value of the format. -/
def text (f : Format) : Binary → String
  | .nan => "NaN"
  | .infinite negative => if negative then "-inf" else "inf"
  | .finite negative m e =>
    (if negative then "-" else "") ++ (if m = 0 then "0" else (f.shortest m e).text)

end Format

end LinearProgramming
