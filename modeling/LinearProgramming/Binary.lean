/-!
# Binary floating-point values

A floating-point number taken apart into sign, significand and exponent, so that its exact value
and its text need no machine arithmetic.

* `Format.decode` and `Format.encode`: the interchange bits of a value.
* `Format.round`: the value nearest to a rational, a tie going to the even significand.
* `Binary.toRat?`: the exact value of a finite number.
-/

namespace LinearProgramming

/-- A binary format: the bits of a significand and the exponents that its last bit may have. -/
structure Format where
  precision : Nat
  minExponent : Int
  maxExponent : Int

/-- Numbers of 64 bits. -/
def Format.double : Format := ⟨53, -1074, 971⟩

/-- Numbers of 32 bits. -/
def Format.single : Format := ⟨24, -149, 104⟩

/-- A floating-point value; `finite negative m e` is `m * 2 ^ e`, below zero if `negative`. -/
inductive Binary where
  | nan
  | infinite (negative : Bool)
  | finite (negative : Bool) (significand : Nat) (exponent : Int)
deriving DecidableEq, Repr

/-- The quotient of two natural numbers, rounded to the nearest integer, a tie to the even one. -/
def roundHalfEven (num den : Nat) : Nat :=
  let q := num / den
  let r := num % den
  if 2 * r < den then q
  else if den < 2 * r then q + 1
  else q + q % 2

namespace Format

/-- Bits of a significand that are written out; the leading one is implied. -/
def fractionBits (f : Format) : Nat := f.precision - 1

/-- The least significand with a leading one. -/
def place (f : Format) : Nat := Nat.pow 2 f.fractionBits

/-- The exponent field of infinities and of values that are not numbers. -/
def topField (f : Format) : Nat := (f.maxExponent - f.minExponent).toNat + 2

/-- The value that interchange bits stand for. -/
def decode (f : Format) (bits : Nat) : Binary :=
  let place := f.place
  let fraction := bits % place
  let field := bits / place % (f.topField + 1)
  let negative := bits / place / (f.topField + 1) % 2 == 1
  if field = 0 then .finite negative fraction f.minExponent
  else if field = f.topField then
    if fraction = 0 then .infinite negative else .nan
  else .finite negative (place + fraction) (f.minExponent + (field - 1 : Nat))

/-- The interchange bits of a value; of those that are no number, the quiet one. -/
def encode (f : Format) : Binary → Nat
  | .nan => f.topField * f.place + f.place / 2
  | .infinite negative => sign negative + f.topField * f.place
  | .finite negative m e =>
    if m < f.place then sign negative + m
    else sign negative + (e - f.minExponent).toNat * f.place + m
where
  sign (negative : Bool) : Nat :=
    if negative then (f.topField + 1) * f.place else 0

/-- The largest integer `k` with `2 ^ k ≤ num / den`, for positive arguments. -/
def binaryMagnitude (num den : Nat) : Int :=
  let k : Int := num.log2 - den.log2
  if num * Nat.pow 2 (-k).toNat < den * Nat.pow 2 k.toNat then k - 1 else k

/-- The nearest value of the format to `num / den`, with the given sign. -/
def roundQuotient (f : Format) (negative : Bool) (num den : Nat) : Binary :=
  if num = 0 then .finite negative 0 f.minExponent
  else
    let e := max (binaryMagnitude num den - (f.precision - 1 : Nat)) f.minExponent
    let m := roundHalfEven (num * Nat.pow 2 (-e).toNat) (den * Nat.pow 2 e.toNat)
    let carried := m = 2 * f.place
    let m' := if carried then f.place else m
    let e' := if carried then e + 1 else e
    if f.maxExponent < e' then .infinite negative else .finite negative m' e'

/-- The value of the format nearest to a rational; beyond the largest one, an infinity. -/
def round (f : Format) (q : Rat) : Binary :=
  f.roundQuotient (decide (q < 0)) q.num.natAbs q.den

end Format

namespace Binary

/-- The exact value of a finite number. -/
def toRat? : Binary → Option Rat
  | .finite negative m e =>
    let magnitude : Rat := mkRat (m * Nat.pow 2 e.toNat : Nat) (Nat.pow 2 (-e).toNat)
    some (if negative then -magnitude else magnitude)
  | _ => none

/-- The value with the other sign. -/
def neg : Binary → Binary
  | .nan => .nan
  | .infinite s => .infinite (!s)
  | .finite s m e => .finite (!s) m e

/-- The number one. -/
def one : Binary := .finite false 4503599627370496 (-52)

def isFinite : Binary → Bool
  | .finite .. => true
  | _ => false

/-- Either zero. -/
def isZero : Binary → Bool
  | .finite _ m _ => m == 0
  | _ => false

/-- At most zero; no such value is below the others. -/
def isNonpositive : Binary → Bool
  | .nan => false
  | .infinite s => s
  | .finite s m _ => s || m == 0

/-- At least zero. -/
def isNonnegative (x : Binary) : Bool := x.neg.isNonpositive

/-- Equality of values: the two zeros are equal, and what is no number equals nothing. -/
def same : Binary → Binary → Bool
  | .infinite s, .infinite t => s == t
  | .finite s m e, .finite t n d => (m == 0 && n == 0) || (s == t && m == n && e == d)
  | _, _ => false

end Binary

end LinearProgramming
