import LinearProgramming.Backend

/-!
# Models

A program together with the result of its last solve.

* `Model.solve`: solves the program. The result is forgotten first, so that it is never that of an
  earlier program.
* `Command`, `Model.perform`: everything that can be asked of a model.
-/

namespace LinearProgramming

/-- A program and what is known of its optimum. -/
structure Model (α : Type) where
  program : Program α
  status : Option Status
  solution : Option (List α)
deriving DecidableEq, Repr

namespace Model

variable {α : Type} [Scalar α]

/-- A model of a program that has not been solved. -/
def ofProgram (p : Program α) : Model α := ⟨p, none, none⟩

def new (sense : Sense) : Model α := ofProgram (.empty sense)

/-- Edits the program; the last result stays. -/
def edit (m : Model α) (f : Program α → Except Rejection (Program α)) :
    Except Rejection (Model α) := do
  return { m with program := ← f m.program }

/-- Removes everything but the sense. -/
def clear (m : Model α) : Model α := new m.program.sense

/-- Puts another program in the place of the model's, which is kept if there is none. -/
def load (f : Sense → Except Rejection (Program α)) (m : Model α) : Except Rejection (Model α) := do
  return ofProgram (← f m.program.sense)

/-! ## Solving -/

/-- The backend of a configuration, what it reports, and its result for a program. -/
def result (e : Engines) (c : Config) (p : Program α) :
    Except Failure (Solution α) × List Event :=
  match Backend.choose (Scalar.exact α) c with
  | .error r => (.error (.rejected r), [])
  | .ok b =>
    let announced :=
      b.warnings (Scalar.exact α) ++
        if c.verbosity = .off then [] else [.solving b.solver]
    match b.solve e p c.method with
    | .error f => (.error f, announced)
    | .ok (solution, events) => (.ok solution, announced ++ events)

/-- Solves the program: says whether there is an optimum, and keeps it. -/
def solve (e : Engines) (c : Config) (m : Model α) :
    Model α × Except Failure Bool × List Event :=
  let r := result e c m.program
  match r.1 with
  | .error f => (ofProgram m.program, .error f, r.2)
  | .ok s =>
    let optimal := s.status == .optimal
    (⟨m.program, some s.status, if optimal then s.values else none⟩, .ok optimal, r.2)

/-! ## Results -/

/-- The values of all variables at the optimum. -/
def values (m : Model α) : Except Rejection (List α) :=
  match m.solution with
  | some xs => .ok xs
  | none => .error .notSolved

/-- The value of the objective at the optimum. -/
def objective (m : Model α) : Except Rejection α := return m.program.objective (← m.values)

/-- The value of one variable at the optimum; one that came later has none. -/
def valueOf (m : Model α) (v : Nat) : Except Rejection α := do
  let _ ← m.program.column v
  match (← m.values)[v]? with
  | some x => return x
  | none => throw .notSolved

end Model

/-! ## Commands -/

/-- A request to change a model. -/
inductive Command (α : Type) where
  | setSense (sense : Sense)
  | addVariables (n : Nat) (bounds : Bounds α)
  | addRow (bounds : Bounds α)
  | setCost (v : Nat) (value : α)
  | addCost (v : Nat) (value : α)
  | setCoefficient (r v : Nat) (value : α)
  | addCoefficient (r v : Nat) (value : α)
  | loadDense (a : DenseMatrix α) (constants costs : List α) (relations : List Relation)
      (nonnegative : Bool)
  | loadTriplets (a : TripletMatrix α) (constants costs : List α) (relations : List Relation)
      (nonnegative : Bool)
  | clear
  | solve (c : Config)

namespace Model

variable {α : Type} [Scalar α]

/-- The model after a command, or why it is refused. A solve that fails is not refused. -/
def apply (e : Engines) (m : Model α) : Command α → Except Rejection (Model α)
  | .setSense s => m.edit fun p => .ok { p with sense := s }
  | .addVariables n b => m.edit fun p => .ok (p.addVariables n b)
  | .addRow b => m.edit fun p => p.addRow b
  | .setCost v c => m.edit fun p => p.setCost v c
  | .addCost v c => m.edit fun p => p.addCost v c
  | .setCoefficient r v c => m.edit fun p => p.setCoefficient r v c
  | .addCoefficient r v c => m.edit fun p => p.addCoefficient r v c
  | .loadDense a b c relations nonnegative =>
    m.load fun s => Program.ofDense s a b c relations nonnegative
  | .loadTriplets a b c relations nonnegative =>
    m.load fun s => Program.ofTriplets s a b c relations nonnegative
  | .clear => .ok m.clear
  | .solve c => .ok (m.solve e c).1

/-- Carries out a command: the model afterwards, and why the command was refused if it was. A
refused command changes nothing. -/
def perform (e : Engines) (m : Model α) (c : Command α) : Model α × Option Rejection :=
  match m.apply e c with
  | .ok n => (n, none)
  | .error r => (m, some r)

/-- The models that commands lead to from an empty one. -/
inductive Reachable (e : Engines) : Model α → Prop where
  | new (sense : Sense) : Reachable e (Model.new sense)
  | perform {m : Model α} (c : Command α) : Reachable e m → Reachable e (m.perform e c).1

end Model

end LinearProgramming
