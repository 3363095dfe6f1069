import LinearProgramming.Conic.Program
import LinearProgramming.Conic.Saddle
import LinearProgramming.Scalar.Floating

/-!
# Scaled conic programs

A conic program in machine numbers whose columns and rows have been multiplied by factors, so that
the largest entries of all of them are about one.

* `Scaled.ofConic`: a conic program, scaled.
* `lengthTimes` and `lengthOver`: lengths as they are without the factors.
-/

namespace LinearProgramming

open Saddle

/-- A conic program whose columns and rows have been multiplied by factors. -/
structure Scaled where
  equalities : Nat
  costs : Array Float
  constants : Array Float
  matrix : Saddle
  columnFactors : Array Float
  rowFactors : Array Float

namespace Scaled

/-- A factor for a row or column whose largest entry is `top`. It brings that entry nearer to one,
but all factors together stay between `1e-4` and `1e4`. -/
def factor (before top : Float) : Float :=
  let wanted := if top == 0 then 1 else 1 / top.sqrt
  let least := 1e-4 / before
  let most := 1e4 / before
  if wanted < least then least else if most < wanted then most else wanted

/-- Multiplies every column and row by a factor. -/
def balance (p : Scaled) : Scaled :=
  let columns := p.columnFactors.zipWith (fun d c => factor d (largest c)) p.matrix.columns
  let rows := p.rowFactors.zipWith (fun e r => factor e (largest r)) p.matrix.rows
  let scaled (own : Float) (others entries : Array Float) : Array Float :=
    entries.zipWith (fun v other => v * (own * other)) others
  { p with
    costs := p.costs.zipWith (· * ·) columns
    constants := p.constants.zipWith (· * ·) rows
    matrix := { p.matrix with
      rows := rows.zipWith (fun e r => scaled e columns r) p.matrix.rows
      columns := columns.zipWith (fun d c => scaled d rows c) p.matrix.columns }
    columnFactors := p.columnFactors.zipWith (· * ·) columns
    rowFactors := p.rowFactors.zipWith (· * ·) rows }

/-- A conic program, balanced ten times. -/
def ofConic (p : ConicProgram) : Scaled :=
  let n := p.matrix.columnCount
  let m := p.matrix.rowCount
  let columns := (Array.range n).map fun v =>
    (p.matrix.entries v).foldl (fun c (i, x) => c.setIfInBounds i (toMachine x))
      (Array.replicate m (0 : Float))
  let rows := (Array.range m).map fun i => columns.map fun c => c.getD i 0
  let given : Scaled := {
    equalities := p.equalities
    costs := (p.costs.map toMachine).toArray
    constants := (p.constants.map toMachine).toArray
    matrix := ⟨rows, columns, Array.replicate m 0⟩
    columnFactors := Array.replicate n 1
    rowFactors := Array.replicate m 1 }
  (List.range 10).foldl (fun q _ => q.balance) given

/-- The number of rows that are inequalities. -/
def degree (p : Scaled) : Nat := p.constants.size - p.equalities

/-- Zeros for the equalities, and the given entries for the inequalities. -/
def onInequalities (p : Scaled) (entries : Array Float) : Array Float :=
  Array.replicate p.equalities 0 ++ entries.extract p.equalities entries.size

/-- The system of the matrix with weights, factored. -/
def factored (p : Scaled) (order : Array Nat) (weights : Array Float) : Factored :=
  { p.matrix with weights := weights }.factored order

end Scaled

/-- The length of a vector with its entries multiplied by factors. -/
def lengthTimes (factors x : Array Float) : Float :=
  let entries := x.zipWith (· * ·) factors
  (scalarProduct entries entries).sqrt

/-- The length of a vector with its entries divided by factors. -/
def lengthOver (factors x : Array Float) : Float :=
  let entries := x.zipWith (· / ·) factors
  (scalarProduct entries entries).sqrt

end LinearProgramming
