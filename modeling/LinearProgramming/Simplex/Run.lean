import LinearProgramming.Simplex.State

/-!
# Runs of the simplex engine

* `State.finishPhaseOne`: the way from phase one to phase two. Artificial variables that are left in
  the basis are exchanged for variables of the program; where that is impossible the row is
  redundant and dropped.
* `State.advance`: one turn of the engine, which moves to another state or stops.
* `State.run`: turns until the engine stops, at most a given number of them.
* `solveCanonical`: the run from the start.
-/

namespace LinearProgramming.Simplex

namespace State

variable {α : Type} [Scalar α]

/-! ## The end of phase one -/

/-- The sum of all artificial variables. -/
def artificialSum (s : State α) : α :=
  (s.values.drop s.variableCount).foldl (· + ·) 0

/-- A phase-two state on its way to a basis without artificials: which of the rows that were looked
at are kept, and what was reported. -/
structure Cleanup (α : Type) where
  state : State α
  keep : List Bool
  events : List Event

/-- Looks at one more row. An artificial variable in it is exchanged for the first variable with a
nonzero entry in the row, if there is one. -/
def Cleanup.look (c : Cleanup α) (i : Nat) : Except Fault (Cleanup α) := do
  let s := c.state
  let r ← fetch s.rows i
  if r.basic < s.variableCount then return { c with keep := c.keep ++ [true] }
  let replacement ← s.firstNonbasic fun j =>
    return !Scalar.near (← dot r.inverse (← fetch s.columns j)) 0
  match replacement with
  | none => return { c with keep := c.keep ++ [false] }
  | some j =>
    let t ← s.pivot i j (← s.direction j)
    return ⟨t, c.keep ++ [true], c.events ++ [.artificialOut i j]⟩

/-- Drops rows, with their rows and columns of the inverse. -/
def restrict (s : State α) (keep : List Bool) : Except Fault (State α) := do
  let columns ← s.columns.mapM (select keep)
  let kept ← select keep s.rows
  let rows ← kept.mapM fun r => return { r with inverse := ← select keep r.inverse }
  return { s with columns, rows }

/-- Gives every basic variable its cost. -/
def loadCosts (s : State α) : Except Fault (State α) := do
  let rows ← s.rows.mapM fun r => return { r with cost := ← fetch s.costs r.basic }
  return { s with rows }

/-- The first state of phase two, none if the artificials cannot all be zero. -/
def finishPhaseOne (s : State α) : Except Fault (Option (State α × List Event)) := do
  if Scalar.below 0 s.artificialSum then return none
  let c ← (List.range s.rowCount).foldlM Cleanup.look ⟨{ s with phase := .two }, [], []⟩
  let dropped := c.keep.count false
  let t ← c.state.restrict c.keep
  let u ← t.loadCosts
  let notice := if dropped = 0 then [] else [.redundant dropped]
  return some (u, c.events ++ notice ++ [.phaseTwo u.rowCount])

/-! ## Turns -/

/-- What one turn comes to: another state, or an end. -/
inductive Turn (α : Type) where
  | moved (next : State α) (events : List Event)
  | stopped (status : Status) (event : Event)

/-- One turn of the engine. -/
def advance (s : State α) : Except Fault (Turn α) := do
  match ← s.entering? with
  | none =>
    match s.phase with
    | .two => return .stopped .optimal (.optimal s.pivots)
    | .one =>
      match ← s.finishPhaseOne with
      | none => return .stopped .infeasible (.infeasible s.pivots)
      | some (t, events) => return .moved t events
  | some j =>
    let d ← s.direction j
    match ← s.leaving? d with
    | none => return .stopped .unbounded (.unbounded j s.pivots)
    | some i =>
      let r ← fetch s.rows i
      let t ← s.pivot i j d
      return .moved { t with pivots := s.pivots + 1 } [.pivot s.pivots j r.basic i]

/-- A run of the engine: it stopped by itself, or was cut off. -/
inductive Run (α : Type) where
  | finished (status : Status) (last : State α) (events : List Event)
  | cut (last : State α) (events : List Event)

/-- The run that reports something more at its beginning. -/
def Run.after (events : List Event) : Run α → Run α
  | .finished status last later => .finished status last (events ++ later)
  | .cut last later => .cut last (events ++ later)

/-- At most `limit` turns. -/
def run : Nat → State α → Except Fault (Run α)
  | 0, s => .ok (.cut s [])
  | limit + 1, s => do
    match ← s.advance with
    | .stopped status event => return .finished status s [event]
    | .moved t events => return (← run limit t).after events

end State

/-- What the engine ended with: the status, and the values of the program's variables then. -/
structure Outcome (α : Type) where
  status : Status
  values : List α
  events : List Event
deriving DecidableEq, Repr

variable {α : Type} [Scalar α]

/-- The run of the engine on a program, whose rows are read as equalities with their lower
bounds. -/
def runCanonical (limit : Nat) (p : Program α) : Except Fault (State.Run α) := do
  let s ← State.start p
  return (← s.run limit).after [.phaseOne p.variableCount p.rowCount]

/-- Solves a canonical program. -/
def solveCanonical (limit : Nat) (p : Program α) : Except Failure (Outcome α) :=
  match runCanonical limit p with
  | .error f => .error (.faulted f)
  | .ok (.cut ..) => .error .stepLimit
  | .ok (.finished status last events) =>
    .ok ⟨status, last.values.take p.variableCount, events⟩

end LinearProgramming.Simplex
