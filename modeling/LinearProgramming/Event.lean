import LinearProgramming.Config

/-!
# Events

What a solve reports on its way, each event with a level and one line of text.
-/

namespace LinearProgramming

/-- How important an event is. -/
inductive Level where
  | info
  | warn
  | debug
  | trace
deriving DecidableEq, Repr

def Level.name : Level → String
  | .info => "INFO"
  | .warn => "WARN"
  | .debug => "DEBUG"
  | .trace => "TRACE"

/-- An event of a solve. Variables and rows are given by their positions. -/
inductive Event where
  | solving (solver : Solver)
  | roundingSolver (solver : Solver)
  | canonicalForm (columns rows givenColumns givenRows : Nat)
  | phaseOne (columns rows : Nat)
  | phaseTwo (rows : Nat)
  | pivot (count entering leaving row : Nat)
  | artificialOut (row entering : Nat)
  | redundant (rows : Nat)
  | infeasible (pivots : Nat)
  | unbounded (direction pivots : Nat)
  | optimal (pivots : Nat)
deriving DecidableEq, Repr

namespace Event

def level : Event → Level
  | .solving _ => .info
  | .roundingSolver _ => .warn
  | .pivot .. => .trace
  | .artificialOut .. => .trace
  | _ => .debug

def text : Event → String
  | .solving s => "Solving LP with solver: " ++ s.name
  | .roundingSolver s =>
    "Solver " ++ s.name ++ " works in floating point, the solution will not be exact"
  | .canonicalForm n m n₀ m₀ =>
    "Canonical form: " ++ size n m ++ " (original " ++ size n₀ m₀ ++ ")"
  | .phaseOne n m => "Simplex phase one: " ++ size n m
  | .phaseTwo m => "Simplex phase two: " ++ toString m ++ " constraints"
  | .pivot k entering leaving row =>
    "Pivot " ++ toString k ++ ": variable " ++ toString entering ++ " enters, variable " ++
      toString leaving ++ " leaves row " ++ toString row
  | .artificialOut row entering =>
    "Pivot artificial out of row " ++ toString row ++ ": variable " ++ toString entering ++
      " enters"
  | .redundant m => "Simplex: dropping " ++ toString m ++ " redundant constraints"
  | .infeasible k => "Simplex: infeasible after " ++ toString k ++ " pivots"
  | .unbounded v k =>
    "Simplex: unbounded along variable " ++ toString v ++ " after " ++ toString k ++ " pivots"
  | .optimal k => "Simplex: optimal after " ++ toString k ++ " pivots"
where
  size (n m : Nat) : String :=
    toString n ++ " variables, " ++ toString m ++ " constraints"

/-- The line of a log. -/
def line (e : Event) : String := e.level.name ++ " " ++ e.text

end Event

end LinearProgramming
