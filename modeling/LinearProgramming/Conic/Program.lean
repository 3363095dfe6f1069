import LinearProgramming.Program

/-!
# Conic programs

A program for solvers in floating point: minimize `q x` where `A x + s = b`, the first entries of
the slack `s` are zero and the others are at least zero.

* `RoundedProgram`: a program with its numbers rounded to doubles.
* `ConicRow.ofProgram`: one row for every fixed row or variable, then one for every finite side of
  the others.
* `CompressedColumns.ofRows`: the matrix by columns, without zeros.
* `ConicProgram.ofRounded`: all together.
-/

namespace LinearProgramming

/-- A program in doubles, with the coefficients of each row by variable. -/
structure RoundedProgram where
  sense : Sense
  costs : List Binary
  bounds : List (Bounds Binary)
  rows : List (Bounds Binary × List (Nat × Binary))
deriving DecidableEq, Repr

/-- Bounds rounded to doubles. -/
def Bounds.toDouble {α : Type} [Scalar α] (b : Bounds α) : Bounds Binary :=
  ⟨Scalar.toDouble b.lower, Scalar.toDouble b.upper⟩

/-- The program with every number rounded to a double. -/
def Program.toDouble {α : Type} [Scalar α] (p : Program α) : RoundedProgram where
  sense := p.sense
  costs := p.costs.map Scalar.toDouble
  bounds := p.columns.map fun c => c.bounds.toDouble
  rows := p.rows.zipIdx.map fun (b, r) =>
    (b.toDouble, (p.rowEntries r).map fun (v, x) => (v, Scalar.toDouble x))

/-! ## Rows -/

/-- A row `a x + s = b`: the coefficients by variable, and the constant. -/
structure ConicRow where
  entries : List (Nat × Binary)
  constant : Binary
deriving DecidableEq, Repr

namespace ConicRow

/-- The row that holds a left side fixed, if its bounds are equal. -/
def equalities (t : Bounds Binary × List (Nat × Binary)) : List ConicRow :=
  if t.1.lower.same t.1.upper then [⟨t.2, t.1.upper⟩] else []

/-- A row for each finite side of a left side that is not fixed: the upper one as it stands, the
lower one negated. -/
def inequalities (t : Bounds Binary × List (Nat × Binary)) : List ConicRow :=
  if t.1.lower.same t.1.upper then []
  else
    (if t.1.upper.isFinite then [⟨t.2, t.1.upper⟩] else []) ++
      (if t.1.lower.isFinite then [⟨t.2.map fun (v, x) => (v, x.neg), t.1.lower.neg⟩] else [])

end ConicRow

namespace RoundedProgram

def variableCount (p : RoundedProgram) : Nat := p.costs.length

/-- Everything that is bounded: the rows, then the variables, each as a row of its own. -/
def bounded (p : RoundedProgram) : List (Bounds Binary × List (Nat × Binary)) :=
  p.rows ++ p.bounds.zipIdx.map fun (b, v) => (b, [(v, Binary.one)])

def equalities (p : RoundedProgram) : List ConicRow := p.bounded.flatMap ConicRow.equalities

def inequalities (p : RoundedProgram) : List ConicRow := p.bounded.flatMap ConicRow.inequalities

/-- The costs of the minimization. -/
def minimizedCosts (p : RoundedProgram) : List Binary :=
  match p.sense with
  | .minimize => p.costs
  | .maximize => p.costs.map Binary.neg

end RoundedProgram

/-! ## The matrix -/

/-- A sparse matrix by columns: the entries of column `j` are those from position `starts[j]` to
`starts[j + 1]`, each with its row. -/
structure CompressedColumns where
  rowCount : Nat
  columnCount : Nat
  starts : List Nat
  rows : List Nat
  values : List Binary
deriving DecidableEq, Repr

namespace CompressedColumns

/-- The entries of one column that are not zero, by row. -/
def column (rows : List ConicRow) (v : Nat) : List (Nat × Binary) :=
  rows.zipIdx.flatMap fun (row, i) =>
    (row.entries.filter fun e => e.1 == v && !e.2.isZero).map fun e => (i, e.2)

/-- Where each part of a list begins, and where the last one ends. -/
def partStarts (start : Nat) : List Nat → List Nat
  | [] => [start]
  | length :: rest => start :: partStarts (start + length) rest

/-- The matrix of rows over `n` variables. -/
def ofRows (n : Nat) (rows : List ConicRow) : CompressedColumns :=
  let columns := (List.range n).map (column rows)
  { rowCount := rows.length
    columnCount := n
    starts := partStarts 0 (columns.map List.length)
    rows := columns.flatten.map (·.1)
    values := columns.flatten.map (·.2) }

/-- The entries of a column. -/
def entries (a : CompressedColumns) (v : Nat) : List (Nat × Binary) :=
  let first := (a.starts[v]?).getD 0
  let next := (a.starts[v + 1]?).getD first
  ((a.rows.zip a.values).drop first).take (next - first)

end CompressedColumns

/-- A conic program: the slacks of the first `equalities` rows are zero. -/
structure ConicProgram where
  costs : List Binary
  matrix : CompressedColumns
  constants : List Binary
  equalities : Nat
deriving DecidableEq, Repr

/-- The conic form of a program. -/
def ConicProgram.ofRounded (p : RoundedProgram) : ConicProgram :=
  let rows := p.equalities ++ p.inequalities
  { costs := p.minimizedCosts
    matrix := .ofRows p.variableCount rows
    constants := rows.map (·.constant)
    equalities := p.equalities.length }

/-- What a solver says about a conic program. -/
inductive ConicAnswer where
  | solved (values : List Binary)
  | infeasible
  | unbounded
  | failed
deriving DecidableEq, Repr

end LinearProgramming
