import LinearProgramming.Model

/-!
# Models in vectors

A model may be laid out in vectors that commands write to one after the other, and a map for the
coefficients. A command that goes wrong on the way leaves behind what it has written by then.

* `Store`, `Model.store`: the vectors, and those of a model.
* `Store.program`: the program that is read from the vectors.
* `Command.inPlace`, `Store.after`: the commands as sequences of writes.
-/

namespace LinearProgramming

/-- A model in vectors. The coefficients are mapped from a variable and a row. -/
structure Store (α : Type) where
  sense : Sense
  costs : List α
  lower : List α
  upper : List α
  rowLower : List α
  rowUpper : List α
  cells : Nat → Nat → Option α
  status : Option Status
  solution : Option (List α)

/-- Writes to the vectors; what was written before a failure stays. -/
abbrev Edit (α β : Type) := EStateM Failure (Store α) β

namespace Store

variable {α : Type}

def empty (sense : Sense) : Store α := ⟨sense, [], [], [], [], [], fun _ _ => none, none, none⟩

/-- Writes one coefficient, or removes it. -/
def write (s : Store α) (v r : Nat) (x : Option α) : Store α :=
  { s with cells := fun w q => if w = v ∧ q = r then x else s.cells w q }

/-- The coefficients of a variable, by row. -/
def entries (s : Store α) (v : Nat) : Entries α :=
  (List.range s.rowLower.length).filterMap fun r => (s.cells v r).map fun x => (r, x)

/-- The program that is stored. -/
def program (s : Store α) : Program α where
  sense := s.sense
  columns := ((s.lower.zip s.upper).zip s.costs).zipIdx.map fun (((lower, upper), cost), v) =>
    ⟨⟨lower, upper⟩, cost, s.entries v⟩
  rows := s.rowLower.zipWith Bounds.mk s.rowUpper

/-- What an edit leaves behind, whether it fails or not. -/
def left {β : Type} : EStateM.Result Failure (Store α) β → Store α
  | .ok _ t => t
  | .error _ t => t

end Store

namespace Edit

variable {α β : Type}

/-- Goes on with a result, or fails. -/
def demand {ε : Type} (failure : ε → Failure) : Except ε β → Edit α β
  | .ok x => pure x
  | .error r => throw (failure r)

def needVariable (v : Nat) : Edit α Unit := do
  if v < (← get).lower.length then return else throw (.rejected (.unknownVariable v))

def needRow (r : Nat) : Edit α Unit := do
  if r < (← get).rowLower.length then return else throw (.rejected (.unknownRow r))

/-- Writes to the vector of costs, at a position that exists. -/
def updateCost (v : Nat) (f : α → α) : Edit α Unit := do
  let costs := (← get).costs
  let costs ← demand .faulted do assign costs v (f (← fetch costs v))
  modify fun s => { s with costs }

variable [Scalar α]

/-! ## Variables and rows -/

/-- Adds a variable without a cost. -/
def makeVariable (b : Bounds α) : Edit α Nat := do
  let v := (← get).lower.length
  modify fun s => { s with lower := s.lower ++ [b.lower] }
  modify fun s => { s with upper := s.upper ++ [b.upper] }
  modify fun s => { s with costs := s.costs ++ [0] }
  return v

def makeVariables : Nat → Bounds α → Edit α Unit
  | 0, _ => return
  | n + 1, b => do
    let _ ← makeVariable b
    makeVariables n b

omit [Scalar α] in
def pushRow (b : Bounds α) : Edit α Unit := do
  modify fun s => { s with rowLower := s.rowLower ++ [b.lower] }
  modify fun s => { s with rowUpper := s.rowUpper ++ [b.upper] }

def makeRow (b : Bounds α) : Edit α Unit := do
  if b.isUnboundedAbove && b.isUnboundedBelow then throw (.rejected .unconstrainedRow)
  pushRow b

/-! ## Coefficients -/

def setCost (v : Nat) (x : α) : Edit α Unit := do
  needVariable v
  updateCost v fun _ => x

def addCost (v : Nat) (x : α) : Edit α Unit := do
  needVariable v
  updateCost v (· + x)

def setCoefficient (r v : Nat) (x : α) : Edit α Unit := do
  needRow r
  needVariable v
  if Scalar.near x 0 then modify (·.write v r none) else modify (·.write v r (some x))

/-- The sum of a coefficient, if there is one, and a value. -/
def sum (current : Option α) (x : α) : α := current.elim x (· + x)

/-- Takes a coefficient out and puts the sum back, unless it is near zero. -/
def accumulate (r v : Nat) (x : α) : Edit α Unit := do
  if Scalar.near x 0 then return
  let current := (← get).cells v r
  modify (·.write v r none)
  if !Scalar.near (sum current x) 0 then modify (·.write v r (some (sum current x)))

def addCoefficient (r v : Nat) (x : α) : Edit α Unit := do
  needRow r
  needVariable v
  accumulate r v x

/-! ## Programs and solves -/

omit [Scalar α] in
def clear : Edit α Unit := modify fun s => .empty s.sense

/-- Loads a program in matrix form, cell by cell. -/
def load (rows columns : Nat) (cells : List (Nat × Nat × α)) (constants costs : List α)
    (relations : List Relation) (nonnegative : Bool) : Edit α Unit := do
  demand .rejected (Program.checkShape rows columns constants costs)
  clear
  costs.forM fun cost => do
    let v ← makeVariable (if nonnegative then .nonnegative else .free)
    updateCost v fun _ => cost
  constants.zipIdx.forM fun (constant, r) =>
    pushRow (Program.rowBounds ((relations[r]?).getD .standard) constant)
  cells.forM fun (r, v, x) => accumulate r v x

/-- Forgets the last result, and stores the next one if there is one. -/
def solve (e : Engines) (config : Config) : Edit α Unit := do
  modify fun s => { s with status := none, solution := none }
  let result ← demand id (Model.result e config (← get).program).1
  modify fun s => { s with status := some result.status }
  if result.status = .optimal then modify fun s => { s with solution := result.values }

end Edit

/-- The cells of a matrix, column by column. -/
def DenseMatrix.cells {α : Type} (a : DenseMatrix α) : List (Nat × Nat × α) :=
  a.positions.map fun t => (t.1, t.2, a.entry t.1 t.2)

/-- A command as a sequence of writes. -/
def Command.inPlace {α : Type} [Scalar α] (e : Engines) : Command α → Edit α Unit
  | .setSense sense => modify fun s => { s with sense }
  | .addVariables n b => Edit.makeVariables n b
  | .addRow b => Edit.makeRow b
  | .setCost v x => Edit.setCost v x
  | .addCost v x => Edit.addCost v x
  | .setCoefficient r v x => Edit.setCoefficient r v x
  | .addCoefficient r v x => Edit.addCoefficient r v x
  | .loadDense a constants costs relations nonnegative =>
    Edit.load a.rows a.columns a.cells constants costs relations nonnegative
  | .loadTriplets a constants costs relations nonnegative =>
    Edit.load a.rows a.columns a.cells constants costs relations nonnegative
  | .clear => Edit.clear
  | .solve config => Edit.solve e config

/-- The model in vectors. -/
def Model.store {α : Type} (m : Model α) : Store α where
  sense := m.program.sense
  costs := m.program.columns.map fun c => c.cost
  lower := m.program.columns.map fun c => c.bounds.lower
  upper := m.program.columns.map fun c => c.bounds.upper
  rowLower := m.program.rows.map fun b => b.lower
  rowUpper := m.program.rows.map fun b => b.upper
  cells := fun v r => (m.program.columns[v]?).bind fun c => c.entries.lookup r
  status := m.status
  solution := m.solution

/-- The vectors after commands, one after the other. -/
def Store.after {α : Type} [Scalar α] (e : Engines) (s : Store α) (cs : List (Command α)) :
    Store α :=
  cs.foldl (fun s c => left ((c.inPlace e).run s)) s

end LinearProgramming
