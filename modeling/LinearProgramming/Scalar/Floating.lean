import LinearProgramming.Scalar

/-!
# Floating-point scalars

Machine numbers of 64 and of 32 bits as element types. Their infinities are the infinite bounds.
-/

namespace LinearProgramming

/-- A machine number, taken apart. -/
def ofMachine (x : Float) : Binary := Format.double.decode x.toBits.toNat

/-- The machine number of a value. -/
def toMachine (x : Binary) : Float := Float.ofBits (UInt64.ofNat (Format.double.encode x))

/-- Relative tolerance of a hundred units in the last place. -/
instance : Scalar Float where
  zero := 0
  one := 1
  exact := false
  infinity := 1 / 0
  less x y := decide (x < y)
  same x y := x == y
  near := nearWithin 0 (1 / 0) 1e-7 (100 * Float.ofBits 0x3CB0000000000000)
  ofInt n := toMachine (Format.double.round n)
  format := .double
  toDouble := ofMachine
  ofDouble := toMachine
  text x := Format.double.text (ofMachine x)

/-- Relative tolerance of ten units in the last place. -/
instance : Scalar Float32 where
  zero := 0
  one := 1
  exact := false
  infinity := 1 / 0
  less x y := decide (x < y)
  same x y := x == y
  near := nearWithin 0 (1 / 0) 1e-7 (10 * Float32.ofBits 0x34000000)
  ofInt n := (toMachine (Format.double.round n)).toFloat32
  format := .single
  toDouble x := ofMachine x.toFloat
  ofDouble x := (toMachine x).toFloat32
  text x := Format.single.text (Format.single.decode x.toBits.toNat)

end LinearProgramming
