import LinearProgramming.Event
import LinearProgramming.Program
import LinearProgramming.Simplex.Vector

/-!
# States of the simplex engine

The engine minimizes over the nonnegative points of equality rows. Beside the variables of the
program each row has an artificial one, which alone is in the row at first; artificials are numbered
after the others. Phase one minimizes the sum of the artificials, phase two the costs.

* `State.start`: the basis of artificials.
* `State.entering?`: the first variable out of the basis whose reduced cost is clearly negative.
* `State.leaving?`: the first row with the smallest ratio, among rows with a clearly positive entry.
* `State.pivot`: one exchange of basis.
-/

namespace LinearProgramming.Simplex

/-- What is being minimized: the artificials, or the costs. -/
inductive Phase where
  | one
  | two
deriving DecidableEq, Repr

/-- A row of the basis: its variable, the cost of that in the current phase, and the row of the
inverse of the basis. -/
structure BasisRow (α : Type) where
  basic : Nat
  cost : α
  inverse : List α
deriving DecidableEq, Repr

/-- A state of the engine. `inBasis` and `values` speak of all variables, artificials included. -/
structure State (α : Type) where
  columns : List (List α)
  costs : List α
  rows : List (BasisRow α)
  inBasis : List Bool
  values : List α
  phase : Phase
  pivots : Nat
deriving DecidableEq, Repr

namespace State

variable {α : Type} [Scalar α]

/-- Variables of the program. -/
def variableCount (s : State α) : Nat := s.columns.length

/-- Rows that are left. -/
def rowCount (s : State α) : Nat := s.rows.length

/-- The state in which every row is solved by its artificial variable, at the lower bound of the
row. -/
def start (p : Program α) : Except Fault (State α) := do
  let n := p.variableCount
  let m := p.rowCount
  let columns ← p.columns.mapM fun c => dense m c.entries
  let rows := (List.range m).map fun i =>
    ⟨n + i, 1, (List.range m).map fun k => if i = k then 1 else 0⟩
  return {
    columns := columns
    costs := p.costs
    rows := rows
    inBasis := List.replicate n false ++ List.replicate m true
    values := List.replicate n 0 ++ p.rows.map (·.lower)
    phase := .one
    pivots := 0 }

/-! ## The entering variable -/

/-- The price of each row: the costs of the basis times its inverse. -/
def prices (s : State α) : Except Fault (List α) :=
  s.rows.foldlM (fun sum r => addMultiple sum r.cost r.inverse) (List.replicate s.rowCount 0)

/-- What a unit of a variable changes in the objective of the phase. -/
def reducedCost (s : State α) (prices : List α) (j : Nat) : Except Fault α := do
  let cost ← match s.phase with
    | .one => pure 0
    | .two => fetch s.costs j
  foldChecked (fun rest price x => rest - price * x) cost prices (← fetch s.columns j)

/-- The first variable of the program out of the basis that satisfies a condition. -/
def firstNonbasic (s : State α) (condition : Nat → Except Fault Bool) :
    Except Fault (Option Nat) :=
  (List.range s.variableCount).findM? fun j => do
    if ← fetch s.inBasis j then return false
    condition j

/-- The variable that enters the basis. -/
def entering? (s : State α) : Except Fault (Option Nat) := do
  let prices ← s.prices
  s.firstNonbasic fun j => return Scalar.below (← s.reducedCost prices j) 0

/-! ## The leaving row -/

/-- The column of a variable in terms of the basis. -/
def direction (s : State α) (j : Nat) : Except Fault (List α) := do
  let column ← fetch s.columns j
  s.rows.mapM fun r => dot r.inverse column

/-- The better of the ratio test so far and one more row. -/
def improve (s : State α) (best : Option (Nat × α)) (i : Nat) (r : BasisRow α) (d : α) :
    Except Fault (Option (Nat × α)) := do
  if !Scalar.below 0 d then return best
  let ratio ← divide (← fetch s.values r.basic) d
  match best with
  | none => return some (i, ratio)
  | some (_, least) => return if Scalar.below ratio least then some (i, ratio) else best

/-- The row whose variable leaves the basis as another one grows along a direction. -/
def leaving? (s : State α) (direction : List α) : Except Fault (Option Nat) := do
  let pairs ← zipChecked Prod.mk s.rows direction
  let best ← pairs.zipIdx.foldlM (fun best (p, i) => s.improve best i p.1 p.2) none
  return best.map (·.1)

/-! ## The exchange -/

/-- The values after the entering variable has taken a step. -/
def move (s : State α) (entering : Nat) (step : α) (direction : List α) :
    Except Fault (List α) := do
  let pairs ← zipChecked (fun (r : BasisRow α) d => (r.basic, d)) s.rows direction
  let values ← pairs.foldlM (fun values (basic, d) => do
    assign values basic ((← fetch values basic) - step * d)) s.values
  assign values entering step

/-- Puts a variable into the basis at a row, along its direction. -/
def pivot (s : State α) (leaving entering : Nat) (direction : List α) :
    Except Fault (State α) := do
  let out ← fetch s.rows leaving
  let d ← fetch direction leaving
  let step ← divide (← fetch s.values out.basic) d
  let values ← s.move entering step direction
  let scaled ← out.inverse.mapM fun x => divide x d
  let cost ← match s.phase with
    | .one => pure 0
    | .two => fetch s.costs entering
  let pairs ← zipChecked Prod.mk s.rows direction
  let rows ← pairs.zipIdx.mapM fun ((r, x), i) =>
    if i = leaving then pure ⟨entering, cost, scaled⟩
    else return { r with inverse := ← subMultiple r.inverse x scaled }
  let inBasis ← assign (← assign s.inBasis out.basic false) entering true
  return { s with rows, inBasis, values }

end State

end LinearProgramming.Simplex
