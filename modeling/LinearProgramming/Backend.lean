import LinearProgramming.Canonical
import LinearProgramming.Conic.Answer
import LinearProgramming.Simplex.Run

/-!
# Backends

The solvers that are at hand. The internal one is the simplex engine, exact for exact element types;
the conic one works in floating point, by a method that is not fixed here.

* `Backend.choose`: the backend for a configuration.
* `Backend.solve`: the result of a backend for a program.
-/

namespace LinearProgramming

/-- A solver that is at hand. -/
inductive Backend where
  | internal
  | conic
deriving DecidableEq, Repr

/-- What the backends work with: how many turns the engine may take, and the conic method, which is
told the format that the data were rounded to. -/
structure Engines where
  stepLimit : Nat
  conic : Format → ConicProgram → ConicAnswer

/-- Engines that take at most `limit` turns. -/
def Engines.within (limit : Nat) : Engines := ⟨limit, ConicProgram.solveWithin limit⟩

/-- The result of a solve: the status, and values of the variables if there is an optimum. -/
structure Solution (α : Type) where
  status : Status
  values : Option (List α)
deriving DecidableEq, Repr

namespace Backend

/-- The solver that a backend is chosen by. -/
def solver : Backend → Solver
  | .internal => .internal
  | .conic => .clarabel

/-- The backend for a configuration. Left open, it is the internal one for an exact element type
and the conic one otherwise. -/
def choose (exact : Bool) (c : Config) : Except Rejection Backend :=
  match c.solver with
  | .auto => .ok (if exact then .internal else .conic)
  | .internal => .ok .internal
  | .clarabel => .ok .conic
  | s => .error (.solverUnavailable s)

/-- A warning if an exact program will be solved in floating point. -/
def warnings (exact : Bool) (b : Backend) : List Event :=
  if exact && b != .internal then [.roundingSolver b.solver] else []

/-- The methods of a backend. -/
def accepts : Backend → Method → Bool
  | .internal, m => m == .auto || m == .simplexPrimal
  | .conic, m => m == .auto || m == .interior

variable {α : Type} [Scalar α]

/-- Solves the canonical form of a program by the simplex engine and recovers its variables. -/
def solveInternal (limit : Nat) (p : Program α) : Except Failure (Solution α × List Event) := do
  let form := p.canonicalForm
  let outcome ← Simplex.solveCanonical limit form.program
  let events := form.event p :: outcome.events
  if outcome.status = .optimal then
    match recoverAll form.recoveries outcome.values with
    | .ok values => return (⟨.optimal, some values⟩, events)
    | .error f => throw (.faulted f)
  else return (⟨outcome.status, none⟩, events)

/-- Every row holds where its left side is zero. -/
def holdsAtZero (p : RoundedProgram) : Bool :=
  p.rows.all fun t => t.1.lower.isNonpositive && t.1.upper.isNonnegative

/-- Solves the conic form of a program. Without variables every left side is zero. -/
def solveConic (conic : Format → ConicProgram → ConicAnswer) (p : Program α) : Solution α :=
  let rounded := p.toDouble
  if rounded.variableCount = 0 then
    if holdsAtZero rounded then ⟨.optimal, some []⟩ else ⟨.infeasible, none⟩
  else
    match conic (Scalar.format α) (.ofRounded rounded) with
    | .solved values => ⟨.optimal, some (values.map Scalar.ofDouble)⟩
    | .infeasible => ⟨.infeasible, none⟩
    | .unbounded => ⟨.unbounded, none⟩
    | .failed => ⟨.error, none⟩

/-- The result of a backend for a program. -/
def solve (b : Backend) (e : Engines) (p : Program α) (m : Method) :
    Except Failure (Solution α × List Event) :=
  if b.accepts m then
    match b with
    | .internal => solveInternal e.stepLimit p
    | .conic => .ok (solveConic e.conic p, [])
  else .error (.rejected (.unsupportedMethod b.solver m))

end Backend

end LinearProgramming
