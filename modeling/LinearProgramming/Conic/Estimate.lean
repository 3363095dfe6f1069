import LinearProgramming.Binary.Fraction

/-!
# Estimates

Arithmetic on rounded data. An estimate is a number together with a bound on how far the number that
was meant may be from it, to first order. A sum that is within its bound may be nothing but
rounding, and counts as zero; so equations that hold of the data as they were meant are not lost.

* `Estimate.plain?` and `Estimate.meant?`: the estimate that a datum of a program stands for.
* `+`, `*`, `-` and `Estimate.inverse`: what is computed from estimates.
-/

namespace LinearProgramming

/-- A number, and how far the one that was meant may be from it. -/
structure Estimate where
  value : Rat
  error : Rat
deriving DecidableEq, Repr

namespace Estimate

def exactly (q : Rat) : Estimate := ⟨q, 0⟩

/-- Errors are kept to a few digits, but over a wide range. -/
def errorFormat : Format := ⟨8, -16384, 16384⟩

/-- An estimate with an error that is rounded. -/
def within (value error : Rat) : Estimate := ⟨value, (errorFormat.round error).toRat?.getD error⟩

/-- The sum, unless it is no more than rounding may have left. -/
def add (a b : Estimate) : Estimate :=
  let sum := within (a.value + b.value) (a.error + b.error)
  if sum.value.abs ≤ sum.error then exactly 0 else sum

def mul (a b : Estimate) : Estimate :=
  within (a.value * b.value) (a.value.abs * b.error + b.value.abs * a.error)

def neg (a : Estimate) : Estimate := ⟨-a.value, a.error⟩

/-- The reciprocal of an estimate that is not zero. -/
def inverse (a : Estimate) : Estimate := within (1 / a.value) (a.error / (a.value * a.value))

instance : Add Estimate := ⟨add⟩
instance : Mul Estimate := ⟨mul⟩
instance : Neg Estimate := ⟨neg⟩

/-- A finite datum for what it is. -/
def plain? (x : Binary) : Option Estimate := x.toRat?.map exactly

/-- A finite datum that was rounded to a format. It stands for a simple fraction, exactly, or else
for a number that is a few units away. -/
def meant? (f : Format) (x : Binary) : Option Estimate :=
  x.toRat?.map fun value =>
    match f.meant? value with
    | some q => exactly q
    | none => within value (4 * f.unit value)

end Estimate

end LinearProgramming
