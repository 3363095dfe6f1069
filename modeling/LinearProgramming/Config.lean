/-!
# Solver configuration

What a caller asks of a solve: which solver, by which method, and how much it may say.
-/

namespace LinearProgramming

/-- A solver to choose; `auto` leaves the choice to the element type. -/
inductive Solver where
  | auto
  | internal
  | clarabel
  | microlp
  | highs
deriving DecidableEq, Repr

namespace Solver

def name : Solver → String
  | .auto => "AUTO"
  | .internal => "INTERNAL"
  | .clarabel => "CLARABEL"
  | .microlp => "MICROLP"
  | .highs => "HIGHS"

def all : List Solver := [.auto, .internal, .clarabel, .microlp, .highs]

end Solver

/-- A solution method; `auto` takes the one of the solver. -/
inductive Method where
  | auto
  | simplexPrimal
  | simplexDual
  | interior
deriving DecidableEq, Repr

namespace Method

def name : Method → String
  | .auto => "AUTO"
  | .simplexPrimal => "SIMPLEX_PRIMAL"
  | .simplexDual => "SIMPLEX_DUAL"
  | .interior => "INTERIOR"

def all : List Method := [.auto, .simplexPrimal, .simplexDual, .interior]

end Method

/-- How much a solve may say. -/
inductive Verbosity where
  | off
  | errors
  | on
  | all
deriving DecidableEq, Repr

namespace Verbosity

def name : Verbosity → String
  | .off => "OFF"
  | .errors => "ERR"
  | .on => "ON"
  | .all => "ALL"

def levels : List Verbosity := [.off, .errors, .on, .all]

end Verbosity

/-- What a solve ended with. -/
inductive Status where
  | optimal
  | infeasible
  | unbounded
  | infeasibleOrUnbounded
  | error
deriving DecidableEq, Repr

namespace Status

def name : Status → String
  | .optimal => "OPTIMAL"
  | .infeasible => "INFEASIBLE"
  | .unbounded => "UNBOUNDED"
  | .infeasibleOrUnbounded => "INFEASIBLE_OR_UNBOUNDED"
  | .error => "ERROR"

def all : List Status := [.optimal, .infeasible, .unbounded, .infeasibleOrUnbounded, .error]

end Status

/-- The member of `xs` with a given name. -/
def named? {α : Type} (name : α → String) (xs : List α) (s : String) : Option α :=
  xs.find? fun x => name x == s

/-- A solver configuration. -/
structure Config where
  solver : Solver := .auto
  method : Method := .auto
  presolve : Bool := false
  verbosity : Verbosity := .off
deriving DecidableEq, Repr

namespace Config

/-- The configuration in which nothing is chosen. -/
def standard : Config := {}

/-- The configuration that chooses a solver only. -/
def ofSolver (s : Solver) : Config := { solver := s }

/-- The configuration that chooses the internal engine. -/
def internal : Config := ofSolver .internal

end Config

end LinearProgramming
