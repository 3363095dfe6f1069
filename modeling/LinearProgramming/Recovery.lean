import LinearProgramming.Failure
import LinearProgramming.Scalar

/-!
# Recovering values

How the value of a variable follows from the values of a program that it was substituted in.

* `recoverAll`: the values of all substituted variables.
-/

namespace LinearProgramming

/-- The entry at a position. -/
def fetch {α : Type} (xs : List α) (i : Nat) : Except Fault α :=
  match xs[i]? with
  | some x => .ok x
  | none => .error .outOfRange

/-- A variable was replaced by `scale * y + offset - y'`, where `y` stands at its own position and
`y'` at the position `paired`; without a pair, by `scale * y + offset`. -/
structure Recovery (α : Type) where
  paired : Option Nat
  scale : α
  offset : α
deriving DecidableEq, Repr

variable {α : Type} [Scalar α]

/-- The value of the variable at a position, from the values of the other program. -/
def Recovery.value (t : Recovery α) (position : Nat) (values : List α) : Except Fault α := do
  let y ← fetch values position
  let shifted := y * t.scale + t.offset
  match t.paired with
  | none => return shifted
  | some k => return shifted - (← fetch values k)

/-- The values of all substituted variables. -/
def recoverAll (ts : List (Recovery α)) (values : List α) : Except Fault (List α) :=
  ts.zipIdx.mapM fun (t, i) => t.value i values

end LinearProgramming
