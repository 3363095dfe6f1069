import LinearProgramming.Scalar

/-!
# Bounds

The values that a variable, or the left side of a row, may take.

* `Bounds.kind`: which sides are bounded. The two sentinels of the element type count as no bound,
  each on its own side only.
-/

namespace LinearProgramming

/-- The values from `lower` to `upper`. The ends may be infinite, and in either order. -/
structure Bounds (α : Type) where
  lower : α
  upper : α
deriving DecidableEq, Repr

/-- Which sides are bounded. -/
inductive BoundKind where
  | free
  | upper
  | lower
  | fixed
  | double
deriving DecidableEq, Repr

def BoundKind.text : BoundKind → String
  | .free => "FREE"
  | .upper => "UPPER"
  | .lower => "LOWER"
  | .fixed => "FIXED"
  | .double => "DOUBLE"

namespace Bounds

variable {α : Type} [Scalar α]

/-- All values from zero on. -/
def nonnegative : Bounds α := ⟨0, Scalar.infinity⟩

/-- All values. -/
def free : Bounds α := ⟨Scalar.negInfinity, Scalar.infinity⟩

/-- All values up to `b`. -/
def upTo (b : α) : Bounds α := ⟨Scalar.negInfinity, b⟩

def isUnboundedBelow (b : Bounds α) : Bool := Scalar.isNegInfinite b.lower

def isUnboundedAbove (b : Bounds α) : Bool := Scalar.isInfinite b.upper

/-- The kind of bounds; two finite ends that are equal fix the value. -/
def kind (b : Bounds α) : BoundKind :=
  match b.isUnboundedBelow, b.isUnboundedAbove with
  | true, true => .free
  | true, false => .upper
  | false, true => .lower
  | false, false => if Scalar.same b.lower b.upper then .fixed else .double

/-- The bounds moved down by `shift`; an infinite end stays. -/
def shiftDown (b : Bounds α) (shift : α) : Bounds α where
  lower := if b.isUnboundedBelow then b.lower else b.lower - shift
  upper := if b.isUnboundedAbove then b.upper else b.upper - shift

end Bounds

end LinearProgramming
