/-!
# Saddle systems

Linear equations in floating point, with the matrix of a constrained minimum:

    columns · z = a
    rows · x - weights · z = b

The weights are at least zero and may be zero, so first the diagonal is moved away from zero by a
little. Then there is a triangular factor in every order of elimination, and what the move has
changed is taken back by solving again for what is left.

* `Saddle.order`: an order of elimination that keeps the factor sparse.
* `Saddle.factored`: the factor.
* `Saddle.Factored.solve?`: the solution, if it is finite.
-/

namespace LinearProgramming

/-- The matrix of a saddle system, by rows and by columns, with a weight for each row. -/
structure Saddle where
  rows : Array (Array Float)
  columns : Array (Array Float)
  weights : Array Float

namespace Saddle

/-! ## Vectors -/

/-- The sum of the products of entries. -/
def scalarProduct (x y : Array Float) : Float :=
  (x.zip y).foldl (fun sum e => sum + e.1 * e.2) 0

/-- The largest magnitude of an entry. -/
def largest (x : Array Float) : Float :=
  x.foldl (fun top v => if top < v.abs then v.abs else top) 0

def isFinite (x : Array Float) : Bool := x.all Float.isFinite

def plus (x y : Array Float) : Array Float := x.zipWith (· + ·) y

def minus (x y : Array Float) : Array Float := x.zipWith (· - ·) y

def times (factor : Float) (x : Array Float) : Array Float := x.map (factor * ·)

/-! ## Equations -/

/-- The left sides of a system, those with `z` alone first. -/
def leftSides (s : Saddle) (x z : Array Float) : Array Float :=
  s.columns.map (scalarProduct · z) ++
    (s.rows.zip (s.weights.zip z)).map fun (row, w, v) => scalarProduct row x - w * v

/-- What the left sides for `v`, which is `x` and then `z`, leave of the right sides. -/
def remainder (s : Saddle) (right v : Array Float) : Array Float :=
  let n := s.columns.size
  minus right (s.leftSides (v.extract 0 n) (v.extract n v.size))

/-- The entry of the matrix for two unknowns. -/
def entry (s : Saddle) (i j : Nat) : Float :=
  let n := s.columns.size
  let coefficient (row column : Nat) : Float := (s.rows.getD row #[]).getD column 0
  if i < n then (if j < n then 0 else coefficient (j - n) i)
  else if j < n then coefficient (i - n) j
  else if i = j then -(s.weights.getD (i - n) 0) else 0

/-! ## Order of elimination -/

/-- Every unknown, with those that share an entry of the matrix with it as the bits of a number. -/
def neighbours (s : Saddle) : List (Nat × Nat) :=
  let n := s.columns.size
  let bits (first : Nat) (x : Array Float) : Nat :=
    x.zipIdx.foldl (fun b (v, i) => if v == 0 then b else b ||| (1 <<< (first + i))) 0
  s.columns.toList.zipIdx.map (fun (c, j) => (j, bits n c)) ++
    s.rows.toList.zipIdx.map fun (r, i) => (n + i, bits 0 r)

/-- The number of bits below a position that are set. -/
def bitCount (size b : Nat) : Nat := ((List.range size).filter b.testBit).length

/-- The unknowns in turn, always one with the fewest neighbours. When it goes, its neighbours become
neighbours of each other. -/
def eliminate (size : Nat) : Nat → List (Nat × Nat) → List Nat
  | 0, _ => []
  | count + 1, graph =>
    let counted := graph.map fun (v, b) => (v, b, bitCount size b)
    let fewest := counted.foldl (fun best e => match best with
      | none => some e
      | some f => if e.2.2 < f.2.2 then some e else best) none
    match fewest with
    | none => []
    | some (v, near, _) =>
      let rest := (graph.filter fun e => e.1 != v).map fun (u, b) =>
        if near.testBit u then (u, (b ||| near) ^^^ (1 <<< u) ^^^ (1 <<< v)) else (u, b)
      v :: eliminate size count rest

/-- The order of elimination. -/
def order (s : Saddle) : Array Nat :=
  let size := s.columns.size + s.rows.size
  (eliminate size size s.neighbours).toArray

/-! ## Factor -/

/-- A row of a triangular factor: the entries before the diagonal, and the pivot. -/
structure FactorRow where
  entries : Array Float
  pivot : Float

/-- The next row of a factor. A pivot without the sign that it must have is only rounding, and is
replaced. -/
def nextRow (above : Array FactorRow) (row : Array Float) (diagonal sign : Float) : FactorRow :=
  let products := (above.zip row).foldl
    (fun ys (r, v) => ys.push (v - scalarProduct ys r.entries)) #[]
  let entries := products.zipWith (fun y r => y / r.pivot) above
  let pivot := diagonal - scalarProduct products entries
  ⟨entries, if pivot * sign ≤ 1e-13 then 2e-7 * sign else pivot⟩

/-- A system with the factor of its matrix. -/
structure Factored where
  system : Saddle
  order : Array Nat
  factor : Array FactorRow

/-- The factor in an order of elimination. The diagonal is moved up for `x` and down for `z`. -/
def factored (s : Saddle) (order : Array Nat) : Factored :=
  let move := 1e-8 + 4.930380657631324e-32 * largest s.weights
  let factor := order.foldl (fun above i =>
    let row := (order.extract 0 above.size).map (s.entry i)
    let sign : Float := if i < s.columns.size then 1 else -1
    above.push (nextRow above row (s.entry i i + sign * move) sign)) #[]
  ⟨s, order, factor⟩

namespace Factored

/-- The solution with the factor, by rows downwards and then by rows upwards. -/
def substitute (k : Factored) (right : Array Float) : Array Float :=
  let ordered := k.order.map fun i => right.getD i 0
  let down := (k.factor.zip ordered).foldl
    (fun ys (r, v) => ys.push (v - scalarProduct r.entries ys)) #[]
  let divided := down.zipWith (fun y r => y / r.pivot) k.factor
  let (_, up) := k.factor.foldr (fun r (rest, found) =>
    let v := rest.back?.getD 0
    (rest.pop.zipWith (fun y l => y - l * v) r.entries, v :: found)) (divided, [])
  (k.order.zip up.toArray).foldl (fun x (i, v) => x.setIfInBounds i v) right

/-- Solves again for what is left of the right sides, as long as that becomes much less. -/
def improve (k : Factored) (right : Array Float) :
    Nat → Array Float → Array Float → Option (Array Float)
  | 0, v, _ => some v
  | count + 1, v, rest =>
    if largest rest ≤ 1e-12 + 1e-13 * largest right then some v
    else
      let better := plus (k.substitute rest) v
      let less := k.system.remainder right better
      if !isFinite less then none
      else if 5 * largest less ≤ largest rest then k.improve right count better less
      else if largest less < largest rest then some better
      else some v

/-- The solution, `x` and `z`, for the right sides `a` and `b`. -/
def solve? (k : Factored) (a b : Array Float) : Option (Array Float × Array Float) := do
  let right := a ++ b
  let first := k.substitute right
  let rest := k.system.remainder right first
  if isFinite rest then
    let v ← k.improve right 10 first rest
    return (v.extract 0 a.size, v.extract a.size v.size)
  else none

end Factored

end Saddle

end LinearProgramming
