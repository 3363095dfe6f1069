import LinearProgramming.Binary.Shortest

/-!
# Element types

The numbers that a program is written in. Exact types compare exactly; floating-point types compare
with a tolerance wherever the solver takes a decision.

* `Scalar`: an element type, with the value that stands for an infinite bound.
* `Scalar.atMost` and `Scalar.below`: the order up to the tolerance; `below x y` fails for values
  that are near each other.
* `nearWithin`: the tolerance of the floating-point types.
-/

namespace LinearProgramming

/-- An element type of linear programs. -/
class Scalar (α : Type) extends Zero α, One α, Add α, Sub α, Mul α, Div α, Neg α where
  /-- Arithmetic rounds nothing. -/
  exact : Bool
  /-- The bound that stands for no upper bound; its negative, for no lower bound. -/
  infinity : α
  /-- The strict order of values. -/
  less : α → α → Bool
  /-- Equality of values. -/
  same : α → α → Bool
  /-- Equality up to the tolerance of the type. -/
  near : α → α → Bool
  /-- The nearest value of the type to an integer. -/
  ofInt : Int → α
  /-- The binary format that values are rounded to, here or on their way to 64 bits. -/
  format : Format
  /-- The value as a number of 64 bits. -/
  toDouble : α → Binary
  /-- The value that a number of 64 bits stands for. -/
  ofDouble : Binary → α
  /-- The value in text. -/
  text : α → String

namespace Scalar

variable {α : Type} [Scalar α]

/-- Not greater, up to the tolerance. -/
def atMost (x y : α) : Bool := less x y || near x y

/-- Less by more than the tolerance. -/
def below (x y : α) : Bool := !atMost y x

/-- The bound that stands for no lower bound. -/
def negInfinity : α := -infinity

def isInfinite (x : α) : Bool := same x infinity

def isNegInfinite (x : α) : Bool := same x negInfinity

def isZero (x : α) : Bool := same x 0

/-- The quotient; an exact type has none by zero. -/
def quotient? (x y : α) : Option α :=
  if exact α && same y 0 then none else some (x / y)

/-- The text of a bound, in which a missing one reads as an infinity. -/
def boundText (x : α) : String :=
  if isInfinite x then "inf" else if isNegInfinite x then "-inf" else text x

end Scalar

/-- Values are near if they are equal, or differ by at most `absolute` when one of them is zero, or
else by at most the share `relative` of the larger magnitude. An infinity is near itself only. -/
def nearWithin {α : Type} [BEq α] [LT α] [DecidableLT α] [LE α] [DecidableLE α] [Sub α] [Mul α]
    [Neg α] (zero infinity absolute relative : α) (x y : α) : Bool :=
  if x == y then true
  else
    let magnitude (v : α) : α := if v < zero then -v else v
    let difference := magnitude (x - y)
    let largest := larger (magnitude x) (magnitude y)
    if largest == infinity then false
    else if x == zero || y == zero then decide (difference ≤ absolute)
    else decide (difference ≤ relative * largest)
where
  /-- The larger of two values; if one of them is no number, the other. -/
  larger (v w : α) : α :=
    if v != v then w else if w != w then v else if v < w then w else v

end LinearProgramming
