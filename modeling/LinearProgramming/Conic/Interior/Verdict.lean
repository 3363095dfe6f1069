import LinearProgramming.Conic.Interior.Point

/-!
# Verdicts on points

How near a point is to an optimum, or to a proof that there is none, and whether that is near
enough.

* `Interior.quality`: the measures of a point.
* `Interior.verdict`: the answer that a point gives.
* `Interior.stalled`: the last turn did harm.
-/

namespace LinearProgramming

namespace Interior

open Saddle

/-- The measures of a point, for the program without its factors. -/
structure Quality where
  /-- The distance of the two costs. -/
  gap : Float
  /-- The gap for a unit of the costs. -/
  relativeGap : Float
  /-- What the rows leave, for a unit of what is in them. -/
  rows : Float
  /-- What the columns leave, for a unit of what is in them. -/
  columns : Float
  /-- The excess for a unit of the scale. -/
  ratio : Float
  cost : Float
  dualCost : Float
  /-- How far the multipliers are from a proof that no point is feasible. -/
  infeasible : Float
  /-- How far the values are from a direction without end. -/
  unbounded : Float

/-- The measures of a point. -/
def quality (p : Scaled) (x : Point) (r : Residuals) : Quality :=
  let atLeastOne (v : Float) : Float := if v < 1 then 1 else v
  let values := lengthTimes p.columnFactors x.values
  let multipliers := lengthTimes p.rowFactors x.multipliers
  let slacks := lengthOver p.rowFactors x.slacks
  let constants := largest (p.constants.zipWith (· / ·) p.rowFactors)
  let costs := largest (p.costs.zipWith (· / ·) p.columnFactors)
  let cost := r.cost / x.scale
  let dualCost := -r.dualCost / x.scale
  let gap := (cost - dualCost).abs
  let smaller := if cost.abs < dualCost.abs then cost.abs else dualCost.abs
  { gap := gap
    relativeGap := gap / atLeastOne smaller
    rows := lengthOver p.rowFactors r.rows / x.scale /
      atLeastOne (constants + values / x.scale + slacks / x.scale)
    columns := lengthOver p.columnFactors r.columns / x.scale /
      atLeastOne (costs + values / x.scale + multipliers / x.scale)
    ratio := x.excess / x.scale
    cost := r.cost
    dualCost := r.dualCost
    infeasible := lengthOver p.columnFactors r.plainColumns / atLeastOne multipliers
    unbounded := lengthOver p.rowFactors r.plainRows / atLeastOne (values + slacks) }

/-- How exact an answer has to be. -/
structure Tolerances where
  gap : Float
  residual : Float
  proof : Float
  ratio : Float

/-- For an answer as exact as it should be. -/
def Tolerances.strict : Tolerances := ⟨1e-8, 1e-8, 1e-8, 1e-6⟩

/-- For the answer that will do if nothing better can be had. -/
def Tolerances.loose : Tolerances := ⟨5e-5, 1e-4, 5e-5, 1e-4⟩

/-- The answer that a point gives. -/
def verdict (p : Scaled) (t : Tolerances) (x : Point) (q : Quality) : Option ConicAnswer :=
  let closed := q.gap < t.gap || q.relativeGap < t.gap
  if q.ratio < 1 && closed && q.rows < t.residual && q.columns < t.residual then
    let values := x.values.zipWith (· * ·) p.columnFactors
    some (.solved (values.toList.map fun v => ofMachine (v / x.scale)))
  else if q.ratio ≤ 1000 / t.ratio then none
  else if q.dualCost < -t.proof && q.infeasible < -t.proof * q.dualCost then some .infeasible
  else if q.cost < -t.proof && q.unbounded < -t.proof * q.cost then some .unbounded
  else none

/-- The last turn did harm: what the equations leave has grown to a hundred times as much, or at all
when the gap had been closed. -/
def stalled (before now : Quality) : Bool :=
  let grown := before.columns < now.columns || before.rows < now.rows
  let closed := now.ratio < 2.220446049250313e-14 &&
    (before.gap < 1e-8 || before.relativeGap < 1e-8)
  let jump (a b : Float) : Bool := 1e-8 < b && 100 * a < b
  grown && (closed || (now.ratio < 1 &&
    (jump before.columns now.columns || jump before.rows now.rows)))

end Interior

end LinearProgramming
