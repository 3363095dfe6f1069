import LinearProgramming.Conic.Estimate
import LinearProgramming.Conic.Program

/-!
# Dictionaries

A method for conic programs. A dictionary has some of the variables and slacks as linear functions
of the others, which are all zero. The method exchanges one of each kind until no slack is out of
its cone, and then until no exchange makes the objective smaller.

It computes with estimates: the data have been rounded, and where the numbers that were meant
cancel, the rounded ones may leave a remainder. A division by a small coefficient makes errors
large, so at first the largest coefficient is exchanged; but this may go on for ever, and after a
time it is the first one that will do.

* `Choice.first?`: which of several exchanges is made.
* `Dictionary.turn`: the next exchange, or the end.
* `ConicProgram.exchangeWithin`: the answer for a conic program. Data that are not finite, and a
  limit on the number of exchanges, make it fail.
-/

namespace LinearProgramming

/-- What a variable of a dictionary may be: anything, only zero, or at least zero. -/
inductive Cone where
  | free
  | zero
  | nonnegative
deriving DecidableEq, Repr

/-- A variable as a linear function of the variables of a dictionary that are zero. -/
structure Expression where
  basic : Nat
  constant : Estimate
  coefficients : List Estimate

/-- A dictionary. The variables come first, then the slacks of equalities, then the others. -/
structure Dictionary where
  variableCount : Nat
  equalities : Nat
  nonbasic : List Nat
  rows : List Expression
  objective : List Estimate

namespace Expression

/-- The coefficient at a position. -/
def coefficient (e : Expression) (position : Nat) : Estimate :=
  (e.coefficients[position]?).getD (.exactly 0)

/-- The function solved for the variable at a position. -/
def solve (e : Expression) (position entering : Nat) : Expression :=
  let inverse := (e.coefficient position).inverse
  { basic := entering
    constant := -e.constant * inverse
    coefficients := e.coefficients.zipIdx.map fun (x, j) =>
      if j = position then inverse else -x * inverse }

/-- Coefficients after the variable at a position has been replaced. -/
def replaceIn (solved : Expression) (position : Nat) (coefficients : List Estimate) :
    List Estimate :=
  let factor := (coefficients[position]?).getD (.exactly 0)
  if factor.value = 0 then coefficients
  else (coefficients.zip solved.coefficients).zipIdx.map fun ((x, y), j) =>
    (if j = position then .exactly 0 else x) + factor * y

/-- The function after the variable at a position has been replaced. -/
def replace (solved : Expression) (position : Nat) (e : Expression) : Expression :=
  { e with
    constant := e.constant + e.coefficient position * solved.constant
    coefficients := solved.replaceIn position e.coefficients }

end Expression

/-- A variable that may be exchanged. -/
structure Choice where
  /-- How far the exchange moves. -/
  room : Rat
  /-- The magnitude of the coefficient, or of the distance to the cone. -/
  size : Rat
  number : Nat
  /-- The row of the variable, or its position among those that are zero. -/
  index : Nat

namespace Choice

/-- The choice with less room goes before; of two with the same, the larger one if sizes count, and
else the first variable. -/
def before (bySize : Bool) (a b : Choice) : Bool :=
  if a.room = b.room then
    if bySize && a.size != b.size then decide (b.size < a.size) else decide (a.number < b.number)
  else decide (a.room < b.room)

/-- The choice that goes before the others. -/
def first? (bySize : Bool) (choices : List Choice) : Option Choice :=
  choices.foldl (fun best c => match best with
    | none => some c
    | some b => if before bySize c b then some c else best) none

end Choice

namespace Dictionary

/-- What a variable may be. -/
def cone (d : Dictionary) (v : Nat) : Cone :=
  if v < d.variableCount then .free
  else if v < d.variableCount + d.equalities then .zero
  else .nonnegative

/-- Exchanges the variable of a row for the one at a position. -/
def exchange (d : Dictionary) (row position : Nat) : Dictionary :=
  match d.rows[row]?, d.nonbasic[position]? with
  | some e, some entering =>
    let solved := e.solve position entering
    { d with
      nonbasic := d.nonbasic.set position e.basic
      rows := (d.rows.map (solved.replace position)).set row solved
      objective := solved.replaceIn position d.objective }
  | _, _ => d

/-- The variables that may move so that a function with the given coefficients falls. -/
def falling (d : Dictionary) (coefficients : List Estimate) : List Choice :=
  ((d.nonbasic.zip coefficients).zipIdx.filter fun ((v, x), _) =>
    match d.cone v with
    | .free => x.value != 0
    | .zero => false
    | .nonnegative => decide (x.value < 0)).map fun ((v, x), j) => ⟨0, x.value.abs, v, j⟩

/-- The function is out of the cone of its variable. -/
def outOfCone (d : Dictionary) (e : Expression) : Bool :=
  match d.cone e.basic with
  | .free => false
  | .zero => e.constant.value != 0
  | .nonnegative => decide (e.constant.value < 0)

/-- The rows that are out of the cones of their variables. -/
def broken (d : Dictionary) : List Choice :=
  (d.rows.zipIdx.filter fun (e, _) => d.outOfCone e).map fun (e, i) =>
    ⟨0, e.constant.value.abs, e.basic, i⟩

/-- How far a function lets a variable move that changes it at a rate, before it leaves its cone. -/
def room? (d : Dictionary) (e : Expression) (rate : Rat) : Option Rat :=
  match d.cone e.basic with
  | .free => none
  | .zero => if rate = 0 then none else some 0
  | .nonnegative => if rate < 0 then some (e.constant.value / -rate) else none

/-- The rows that stop a variable which moves by `sign` at a time. -/
def blocking (d : Dictionary) (sign : Rat) (position : Nat) : List Choice :=
  d.rows.zipIdx.filterMap fun (e, i) =>
    let rate := sign * (e.coefficient position).value
    (d.room? e rate).map fun room => ⟨room, rate.abs, e.basic, i⟩

/-- What comes next: another dictionary, or an end. -/
inductive Turn where
  | moved (d : Dictionary)
  | optimal
  | infeasible
  | unbounded

/-- The next exchange. If it is always the first one of those that will do, the method ends. -/
def turn (bySize : Bool) (d : Dictionary) : Turn :=
  match Choice.first? bySize d.broken with
  | some row =>
    match d.rows[row.index]? with
    | none => .infeasible
    | some e =>
      let target := if e.constant.value < 0 then e.coefficients.map (-·) else e.coefficients
      match Choice.first? bySize (d.falling target) with
      | some c => .moved (d.exchange row.index c.index)
      | none => .infeasible
  | none =>
    match Choice.first? bySize (d.falling d.objective) with
    | none => .optimal
    | some c =>
      let sign : Rat :=
        if 0 < ((d.objective[c.index]?).getD (.exactly 0)).value then -1 else 1
      match Choice.first? bySize (d.blocking sign c.index) with
      | some row => .moved (d.exchange row.index c.index)
      | none => .unbounded

/-- The value of a variable. -/
def value (d : Dictionary) (v : Nat) : Rat :=
  match d.rows.find? fun e => e.basic == v with
  | some e => e.constant.value
  | none => 0

/-- At most `limit` exchanges, of which all but the last `patient` go by size. -/
def run (patient : Nat) : Nat → Dictionary → ConicAnswer
  | 0, _ => .failed
  | limit + 1, d =>
    match d.turn (decide (patient ≤ limit)) with
    | .moved next => run patient limit next
    | .optimal =>
      .solved ((List.range d.variableCount).map fun v => Format.double.round (d.value v))
    | .infeasible => .infeasible
    | .unbounded => .unbounded

/-- The dictionary in which the slacks are functions of the variables, if all data can be read. -/
def ofConic? (read? : Binary → Option Estimate) (p : ConicProgram) : Option Dictionary := do
  let n := p.matrix.columnCount
  let costs ← p.costs.mapM read?
  let constants ← p.constants.mapM read?
  let columns ← (List.range n).mapM fun v =>
    (p.matrix.entries v).mapM fun (i, x) => (read? x).map fun q => (i, q)
  return {
    variableCount := n
    equalities := p.equalities
    nonbasic := List.range n
    rows := constants.zipIdx.map fun (b, i) =>
      { basic := n + i
        constant := b
        coefficients := columns.map fun c =>
          -(((c.find? fun e => e.1 == i).map (·.2)).getD (.exactly 0)) }
    objective := costs }

end Dictionary

/-- The answer for a conic program whose data are read in some way, reached in at most `limit`
exchanges. -/
def ConicProgram.exchangeWithin (limit : Nat) (read? : Binary → Option Estimate)
    (p : ConicProgram) : ConicAnswer :=
  match Dictionary.ofConic? read? p with
  | some d => d.run (limit - limit / 20) limit
  | none => .failed

end LinearProgramming
