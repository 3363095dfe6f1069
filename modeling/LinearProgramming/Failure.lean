import LinearProgramming.Config

/-!
# Failures

Why an operation has no result.

* `Rejection`: the caller asked for something that the program or the configuration does not allow.
* `Fault`: a computation has no meaning, such as a division by zero. No solve of a well-formed
  program meets one.
* `Failure`: a solve ended without a result.
-/

namespace LinearProgramming

/-- A request that is refused. -/
inductive Rejection where
  | unconstrainedRow
  | unknownVariable (v : Nat)
  | unknownRow (r : Nat)
  | shapeMismatch (rows columns constants costs : Nat)
  | unknownSense (sign : Char)
  | notSolved
  | unsupportedMethod (solver : Solver) (method : Method)
  | solverUnavailable (solver : Solver)
deriving DecidableEq, Repr

/-- What the caller is told. -/
def Rejection.message : Rejection → String
  | .unconstrainedRow => "Tried to add an unconstrained constraint"
  | .unknownVariable v => "Variable x" ++ toString v ++ " is not in the program"
  | .unknownRow r => "Constraint c" ++ toString r ++ " is not in the program"
  | .shapeMismatch rows columns constants costs =>
    "Invalid size: A is " ++ toString rows ++ "x" ++ toString columns ++ ", b has " ++
      toString constants ++ " entries, c has " ++ toString costs ++ " entries"
  | .unknownSense sign => "Invalid constraint sense \x27" ++ sign.toString ++ "\x27"
  | .notSolved => "No solution, the program has not been solved to optimality"
  | .unsupportedMethod solver method =>
    "Solver " ++ solver.name ++ " does not support method " ++ method.name
  | .solverUnavailable solver =>
    "Solver " ++ solver.name ++ " is not available, enable the corresponding feature"

/-- A computation without meaning. -/
inductive Fault where
  | outOfRange
  | zeroDivisor
deriving DecidableEq, Repr

/-- A solve without a result; `stepLimit` says that the engine was stopped before it came to one. -/
inductive Failure where
  | rejected (r : Rejection)
  | faulted (f : Fault)
  | stepLimit
deriving DecidableEq, Repr

end LinearProgramming
