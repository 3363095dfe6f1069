import LinearProgramming.Conic.Dictionary
import LinearProgramming.Conic.Interior

/-!
# Answers for conic programs

The data of a program have been rounded, and may be read in two ways: for what they are, and for the
simple numbers that they probably stand for. Mostly the answer is the same. Where it is not, one of
the readings makes too much of rounding errors and the other one too little, and a method that sees
the data with a tolerance decides.

* `ConicProgram.solveWithin`: the answer for data that were rounded to a format.
-/

namespace LinearProgramming

/-- The units of a format are larger than what a method with tolerances overlooks, which is about
`2 ^ -27`. -/
def Format.isCoarse (f : Format) : Bool := decide (f.precision < 27)

/-- The cost of values. -/
def ConicProgram.cost (p : ConicProgram) (values : List Binary) : Rat :=
  (p.costs.zip values).foldl (fun sum (c, x) => sum + c.toRat?.getD 0 * x.toRat?.getD 0) 0

/-- How far two answers are apart in cost, if they are of one kind. -/
def ConicProgram.distance? (p : ConicProgram) : ConicAnswer → ConicAnswer → Option Rat
  | .solved xs, .solved ys => some (p.cost xs - p.cost ys).abs
  | a, b => if a = b then some 0 else none

/-- The second answer is clearly nearer to a given one than the first answer is. -/
def ConicProgram.prefers (p : ConicProgram) (given first second : ConicAnswer) : Bool :=
  match p.distance? given first, p.distance? given second with
  | some d, some e => decide (2 * e < d)
  | none, some _ => true
  | _, none => false

/-- The answer for a conic program with data that were rounded to a format, reached in at most
`limit` exchanges. Data in a coarse format count for what they are, others for what they stand for,
unless a method with tolerances comes nearer to the other answer. -/
def ConicProgram.solveWithin (limit : Nat) (f : Format) (p : ConicProgram) : ConicAnswer :=
  let plain := p.exchangeWithin limit Estimate.plain?
  let meant := p.exchangeWithin limit (Estimate.meant? f)
  let (first, second) := if f.isCoarse then (plain, meant) else (meant, plain)
  if first = second then first
  else if p.prefers p.interior first second then second else first

end LinearProgramming
