import LinearProgramming.Conic.Scaled

/-!
# Points inside a cone

A conic program and its dual are joined to one system that always has a solution. Its unknowns are
those of both, a scale by which they are divided in the end, and an excess. Where the scale stays
above zero there is an optimum; where the excess does, a proof that there is none.

Slacks and multipliers of inequalities come in pairs, and so do scale and excess. All of them are
kept above zero, and a solution is near when the products of the pairs are small.

* `Interior.start?`: the first point.
* `Interior.turn?`: the next point.
-/

namespace LinearProgramming

namespace Interior

open Saddle

/-- The unknowns of the joint system, or a step of them. -/
structure Point where
  values : Array Float
  multipliers : Array Float
  slacks : Array Float
  scale : Float
  excess : Float

/-- What the equations of the joint system leave at a point. -/
structure Residuals where
  columns : Array Float
  rows : Array Float
  objective : Float
  /-- Without the costs. -/
  plainColumns : Array Float
  /-- Without the constants. -/
  plainRows : Array Float
  cost : Float
  dualCost : Float
  /-- The mean product of the pairs. -/
  product : Float

/-- The residuals at a point. -/
def residuals (p : Scaled) (x : Point) : Residuals :=
  let columns := p.matrix.columns.map fun c => -scalarProduct c x.multipliers
  let rows := plus (p.matrix.rows.map (scalarProduct · x.values)) x.slacks
  let cost := scalarProduct p.costs x.values
  let dualCost := scalarProduct p.constants x.multipliers
  let products := scalarProduct x.slacks x.multipliers + x.scale * x.excess
  { columns := minus columns (times x.scale p.costs)
    rows := minus rows (times x.scale p.constants)
    objective := cost + dualCost + x.excess
    plainColumns := columns
    plainRows := rows
    cost := cost
    dualCost := dualCost
    product := products / (p.degree + 1).toFloat }

/-! ## The first point -/

/-- Moves the entries of inequalities up until none of them is small. -/
def intoCone (p : Scaled) (x : Array Float) : Array Float :=
  if p.degree = 0 then x
  else
    let given := x.extract p.equalities x.size
    let least := given.foldl (fun low v => if v < low then v else low) (given.getD 0 0)
    let above := given.foldl (fun sum v => if 0 < v then sum + v else sum) 0
    let tenth := 0.1 * above / p.degree.toFloat
    let target := if 1 < tenth then tenth else 1
    let moved :=
      if least ≤ 0 then given.map fun v => v - least + target
      else if least < target then given.map fun v => v + (target - least)
      else given
    x.extract 0 p.equalities ++ moved

/-- The first point: the smallest slacks and the smallest multipliers that satisfy the equations of
one program each, moved into the cone. -/
def start? (p : Scaled) (order : Array Nat) : Option Point := do
  let k := p.factored order (p.onInequalities (Array.replicate p.constants.size 1))
  let (values, negated) ← k.solve? (Array.replicate p.costs.size 0) p.constants
  let (_, multipliers) ← k.solve? (times (-1) p.costs) (Array.replicate p.constants.size 0)
  return {
    values := values
    multipliers := intoCone p multipliers
    slacks := intoCone p (p.onInequalities (times (-1) negated))
    scale := 1
    excess := 1 }

/-! ## Steps -/

/-- The part of a step, at most all of it, after which a number is zero. -/
def room (value step : Float) : Float := if step < 0 then -value / step else 1

/-- The part of a step, at most all of it, that leaves nothing below zero. -/
def share (p : Scaled) (x step : Point) : Float :=
  let rooms (numbers steps : Array Float) : Array Float :=
    (numbers.zipWith room steps).extract p.equalities numbers.size
  (#[room x.scale step.scale, room x.excess step.excess] ++
    rooms x.multipliers step.multipliers ++ rooms x.slacks step.slacks).foldl
      (fun least v => if v < least then v else least) 1

/-- The step that takes a share of the residuals away and the shifts from the products of the pairs;
`shift` is for a unit of the multipliers. It is a part without the constant terms and a multiple of
`constant`, the solution for them. -/
def step? (p : Scaled) (k : Factored) (constant : Array Float × Array Float) (x : Point)
    (r : Residuals) (share : Float) (shift : Array Float) (excessShift : Float) :
    Option Point := do
  let (constantX, constantZ) := constant
  let (freeX, freeZ) ← k.solve? (times share r.columns) (minus shift (times share r.rows))
  let free := scalarProduct p.costs freeX + scalarProduct p.constants freeZ
  let bound := scalarProduct p.costs constantX + scalarProduct p.constants constantZ
  let scale := (share * r.objective - excessShift / x.scale + free) / (x.excess / x.scale - bound)
  let multipliers := plus freeZ (times scale constantZ)
  return {
    values := plus freeX (times scale constantX)
    multipliers := multipliers
    slacks := (k.system.weights.zipWith (· * ·) multipliers).zipWith (fun a b => -(a + b)) shift
    scale := scale
    excess := -(excessShift + x.excess * scale) / x.scale }

/-- The point after a part of a step. -/
def Point.move (x : Point) (part : Float) (step : Point) : Point where
  values := plus x.values (times part step.values)
  multipliers := plus x.multipliers (times part step.multipliers)
  slacks := plus x.slacks (times part step.slacks)
  scale := x.scale + part * step.scale
  excess := x.excess + part * step.excess

/-- The next point. The step towards a solution is only tried: how far it could go says by how much
the products may fall at once, and what it would do to them corrects the step that is made. There is
no next point if a step has no solution or hardly any room. -/
def turn? (p : Scaled) (order : Array Nat) (first : Bool) (x : Point) (r : Residuals) :
    Option Point := do
  let k := p.factored order (p.onInequalities (x.slacks.zipWith (· / ·) x.multipliers))
  let constant ← k.solve? (times (-1) p.costs) p.constants
  let tried ← step? p k constant x r 1 (p.onInequalities x.slacks) (x.scale * x.excess)
  let far := share p x tried
  let kept := (1 - far) * (1 - far) * (1 - far)
  let trust := if first then far else 1
  let shift := (x.slacks.zip x.multipliers).zipWith
    (fun (s, z) (ds, dz) => (s * z + trust * ds * dz - kept * r.product) / z)
    (tried.slacks.zip tried.multipliers)
  let step ← step? p k constant x r (1 - kept) (p.onInequalities shift)
    (-kept * r.product + trust * tried.scale * tried.excess + x.scale * x.excess)
  let part := 0.99 * share p x step
  if part ≤ 1e-4 then none else return x.move part step

end Interior

end LinearProgramming
