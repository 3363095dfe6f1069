import LinearProgramming.Binary.Shortest

/-!
# Fractions behind rounded values

A value of a binary format is seldom the fraction that it was rounded from, or that a sum of such
values was meant to be. But it is near, and a simple fraction can be told from the value: it is a
decimal of few digits, or a convergent of the continued fraction of the value, and simpler than what
chance puts so near.

* `convergents`: the convergents of a fraction.
* `Format.meant?`: the fraction that a value stands for, if there is a simple one.
-/

namespace LinearProgramming

/-- The convergents of `num / den` that follow `p / q` and the one before it, `p' / q'`. -/
def convergentsAfter (num den p q p' q' : Nat) : List (Nat × Nat) :=
  if den = 0 then []
  else
    let a := num / den
    (a * p + p', a * q + q') :: convergentsAfter den (num % den) (a * p + p') (a * q + q') p q
termination_by den
decreasing_by exact Nat.mod_lt num (by omega)

/-- The convergents of `num / den`, as numerators and denominators. The last one is the fraction in
lowest terms. -/
def convergents (num den : Nat) : List (Nat × Nat) := convergentsAfter num den 1 0 0 1

namespace Format

/-- A unit in the last place of the value that a rational is rounded to. -/
def unit (f : Format) (q : Rat) : Rat :=
  match f.round q with
  | .finite _ _ e => mkRat (Nat.pow 2 e.toNat : Nat) (Nat.pow 2 (-e).toNat)
  | _ => 0

/-- A fraction is simple if the product of numerator and denominator is at most this, and a decimal
if its digits are. There are so few that by chance only one in thousands of values is near one. -/
def simple (f : Format) : Nat := Nat.pow 2 (f.precision - 12)

/-- A value is at most so many units away from the fraction that it stands for. This leaves room for
some sums. -/
def reach (f : Format) : Nat := Nat.pow 2 (f.precision / 8)

/-- The decimal that a positive value of full precision stands for, if it has few digits. -/
def decimal? (f : Format) (value : Rat) : Option Rat :=
  match f.round value with
  | .finite _ m e =>
    let d := f.shortest m e
    if f.place ≤ m && d.digits ≤ f.simple then
      some (mkRat (d.digits * Nat.pow 10 d.exponent.toNat : Nat) (Nat.pow 10 (-d.exponent).toNat))
    else none
  | _ => none

/-- A positive value may stand for a fraction: the two are near each other, and the more units they
are apart, the simpler is the fraction. -/
def explains (f : Format) (value : Rat) (c : Nat × Nat) : Bool :=
  let distance := (value - mkRat c.1 c.2).abs / f.unit value
  let size := c.1 * c.2
  size != 0 && decide (distance ≤ (f.reach : Nat)) && decide (size ≤ 2 * f.simple) &&
    decide (distance * (size : Nat) ≤ (f.simple : Nat))

/-- The fraction that a value of the format stands for: an integer for itself, any other value for
a decimal of few digits or for the first of its convergents that explains it. -/
def meant? (f : Format) (value : Rat) : Option Rat :=
  if value.den = 1 then some value
  else
    let magnitude := value.abs
    let found := (f.decimal? magnitude).or
      (((convergents magnitude.num.natAbs magnitude.den).find? (f.explains magnitude)).map
        fun c => mkRat c.1 c.2)
    found.map fun q => if value < 0 then -q else q

end Format

end LinearProgramming
