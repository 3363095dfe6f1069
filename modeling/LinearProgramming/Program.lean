import LinearProgramming.Entries
import LinearProgramming.Failure
import LinearProgramming.Bounds
import LinearProgramming.Sense

/-!
# Linear programs

A program asks for values of its variables, each within bounds, that keep the left side of every
row within the bounds of the row and make the objective best. Variables and rows are named by their
positions.

* `Program.setCoefficient`, `Program.addCoefficient`: write one cell of the constraint matrix; a
  cell that is near zero is not stored.
* `Program.ofDense`, `Program.ofTriplets`: programs in matrix form.
* `Program.coefficients`: the stored cells, column by column.
-/

namespace LinearProgramming

/-- A variable: its bounds, its cost and its column of the constraint matrix. -/
structure Column (α : Type) where
  bounds : Bounds α
  cost : α
  entries : Entries α
deriving DecidableEq, Repr

/-- A linear program. -/
structure Program (α : Type) where
  sense : Sense
  columns : List (Column α)
  rows : List (Bounds α)
deriving DecidableEq, Repr

/-- A matrix given by all its entries. -/
structure DenseMatrix (α : Type) where
  rows : Nat
  columns : Nat
  entry : Nat → Nat → α

/-- The positions of a matrix, column by column. -/
def DenseMatrix.positions {α : Type} (a : DenseMatrix α) : List (Nat × Nat) :=
  (List.range a.columns).flatMap fun v => (List.range a.rows).map fun r => (r, v)

/-- A matrix given as a sum of cells `(row, column, value)`. -/
structure TripletMatrix (α : Type) where
  rows : Nat
  columns : Nat
  cells : List (Nat × Nat × α)
  inRange : ∀ t ∈ cells, t.1 < rows ∧ t.2.1 < columns

namespace Column

variable {α : Type} [Scalar α]

/-- The column of a new variable. -/
def new (bounds : Bounds α) : Column α := ⟨bounds, 0, []⟩

/-- The coefficient at a row, zero if none is stored. -/
def coefficient (c : Column α) (row : Nat) : α := (c.entries.lookup row).getD 0

/-- Replaces the coefficient at a row. -/
def set (row : Nat) (value : α) (c : Column α) : Column α :=
  { c with entries := if Scalar.near value 0 then c.entries.erase row else c.entries.put row value }

/-- Adds to the coefficient at a row; a sum near zero is forgotten. -/
def add (row : Nat) (value : α) (c : Column α) : Column α :=
  if Scalar.near value 0 then c
  else
    let sum := match c.entries.lookup row with
      | some current => current + value
      | none => value
    c.set row sum

end Column

namespace Program

variable {α : Type} [Scalar α]

/-- The program without variables and rows. -/
def empty (sense : Sense) : Program α := ⟨sense, [], []⟩

/-! ## Variables and rows -/

def variableCount (p : Program α) : Nat := p.columns.length

def rowCount (p : Program α) : Nat := p.rows.length

/-- Adds variables with common bounds; the first has the position `p.variableCount`. -/
def addVariables (p : Program α) (n : Nat) (bounds : Bounds α) : Program α :=
  { p with columns := p.columns ++ List.replicate n (Column.new bounds) }

/-- Adds a row, at position `p.rowCount`, without coefficients. -/
def pushRow (p : Program α) (bounds : Bounds α) : Program α :=
  { p with rows := p.rows ++ [bounds] }

/-- Adds a row that is bounded on one side at least. -/
def addRow (p : Program α) (bounds : Bounds α) : Except Rejection (Program α) :=
  if bounds.kind = .free then .error .unconstrainedRow else .ok (p.pushRow bounds)

/-- The column of a known variable. -/
def column (p : Program α) (v : Nat) : Except Rejection (Column α) :=
  match p.columns[v]? with
  | some c => .ok c
  | none => .error (.unknownVariable v)

/-- The bounds of a known row. -/
def row (p : Program α) (r : Nat) : Except Rejection (Bounds α) :=
  match p.rows[r]? with
  | some b => .ok b
  | none => .error (.unknownRow r)

/-- Changes the column of a known variable. -/
def updateColumn (p : Program α) (v : Nat) (f : Column α → Column α) :
    Except Rejection (Program α) := do
  let c ← p.column v
  return { p with columns := p.columns.set v (f c) }

/-! ## Coefficients -/

def setCost (p : Program α) (v : Nat) (cost : α) : Except Rejection (Program α) :=
  p.updateColumn v fun c => { c with cost := cost }

def addCost (p : Program α) (v : Nat) (cost : α) : Except Rejection (Program α) :=
  p.updateColumn v fun c => { c with cost := c.cost + cost }

/-- Replaces the coefficient of a variable in a row; an unknown row is reported first. -/
def setCoefficient (p : Program α) (r v : Nat) (value : α) : Except Rejection (Program α) := do
  let _ ← p.row r
  p.updateColumn v (Column.set r value)

/-- Adds to the coefficient of a variable in a row; an unknown row is reported first. -/
def addCoefficient (p : Program α) (r v : Nat) (value : α) : Except Rejection (Program α) := do
  let _ ← p.row r
  p.updateColumn v (Column.add r value)

/-- The coefficient of a variable in a row; an unknown row is reported first. -/
def coefficient (p : Program α) (r v : Nat) : Except Rejection α := do
  let _ ← p.row r
  let c ← p.column v
  return c.coefficient r

/-- The stored coefficients as `(row, variable, value)`, by variable and then by row. -/
def coefficients (p : Program α) : List (Nat × Nat × α) :=
  (p.columns.zipIdx).flatMap fun (c, v) => c.entries.map fun (r, value) => (r, v, value)

/-- The stored coefficients of a row as `(variable, value)`, by variable. -/
def rowEntries (p : Program α) (r : Nat) : List (Nat × α) :=
  (p.columns.zipIdx).filterMap fun (c, v) => (c.entries.lookup r).map fun value => (v, value)

/-! ## Objective -/

def costs (p : Program α) : List α := p.columns.map (·.cost)

/-- The value of the objective at a point. -/
def objective (p : Program α) (point : List α) : α :=
  (p.costs.zip point).foldl (fun sum t => sum + t.1 * t.2) 0

/-! ## Matrix form -/

/-- The bounds of a row whose left side is in a relation to a constant. -/
def rowBounds (relation : Relation) (constant : α) : Bounds α :=
  match relation with
  | .atMost => .upTo constant
  | .equal => ⟨constant, constant⟩
  | .atLeast => ⟨constant, Scalar.infinity⟩

/-- The program without coefficients that has the given constants, costs and relations. Rows for
which no relation is given are upper bounds; variables are free unless `nonnegative`. -/
def frame (sense : Sense) (constants costs : List α) (relations : List Relation)
    (nonnegative : Bool) : Program α where
  sense := sense
  columns := costs.map fun cost => ⟨if nonnegative then .nonnegative else .free, cost, []⟩
  rows := constants.zipIdx.map fun (constant, r) =>
    rowBounds ((relations[r]?).getD .standard) constant

/-- Adds to one cell of the constraint matrix. -/
def accumulate (p : Program α) (r v : Nat) (value : α) : Program α :=
  { p with columns := p.columns.modify v (Column.add r value) }

/-- The matrix has a row for each constant and a column for each cost. -/
def checkShape (rows columns : Nat) (constants costs : List α) : Except Rejection Unit :=
  if rows = constants.length ∧ columns = costs.length then .ok ()
  else .error (.shapeMismatch rows columns constants.length costs.length)

/-- The program in matrix form, cells read column by column. -/
def ofDense (sense : Sense) (a : DenseMatrix α) (constants costs : List α)
    (relations : List Relation) (nonnegative : Bool) : Except Rejection (Program α) := do
  checkShape a.rows a.columns constants costs
  return a.positions.foldl (fun p t => p.accumulate t.1 t.2 (a.entry t.1 t.2))
    (frame sense constants costs relations nonnegative)

/-- The program in matrix form, cells added up in the order in which they are listed. -/
def ofTriplets (sense : Sense) (a : TripletMatrix α) (constants costs : List α)
    (relations : List Relation) (nonnegative : Bool) : Except Rejection (Program α) := do
  checkShape a.rows a.columns constants costs
  return a.cells.foldl (fun p t => p.accumulate t.1 t.2.1 t.2.2)
    (frame sense constants costs relations nonnegative)

end Program

end LinearProgramming
