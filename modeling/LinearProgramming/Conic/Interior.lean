import LinearProgramming.Conic.Interior.Verdict

/-!
# Interior points

A method for conic programs in floating point that goes through the inside of the cone. All its
tests have tolerances, so a program whose equations contradict each other by no more than the
tolerance has an optimum here.

* `ConicProgram.interior`: the answer, if one comes within two hundred turns.
-/

namespace LinearProgramming

namespace Interior

/-- The answer that will do, if a point gives one. -/
def conclude (p : Scaled) (x : Point) (q : Quality) : ConicAnswer :=
  (verdict p .loose x q).getD .failed

/-- At most `count` turns from a point. After the second one, `before` is the point of the turn
before. -/
def run (p : Scaled) (order : Array Nat) (first : Bool) :
    Nat → Point → Option (Point × Quality) → ConicAnswer
  | count, x, before =>
    let r := residuals p x
    let q := quality p x r
    match verdict p .strict x q with
    | some a => a
    | none =>
      match before.filter fun b => stalled b.2 q with
      | some (y, old) => conclude p y old
      | none =>
        match count with
        | 0 => conclude p x q
        | rest + 1 =>
          match turn? p order first x r with
          | none => conclude p x q
          | some next => run p order false rest next (if first then none else some (x, q))

end Interior

/-- The answer for a conic program by interior points. -/
def ConicProgram.interior (p : ConicProgram) : ConicAnswer :=
  let scaled := Scaled.ofConic p
  let order := scaled.matrix.order
  match Interior.start? scaled order with
  | none => .failed
  | some x => Interior.run scaled order true 200 x none

end LinearProgramming
