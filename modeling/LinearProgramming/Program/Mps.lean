import LinearProgramming.Program.Text

/-!
# MPS files

A program in the free form of the MPS format, for other solvers. A file is a list of records, one
to a line; what equals the default of its section is left out.

* `Program.mpsRecords`: the records of a program. A row with two different finite bounds is a lower
  bound with a range.
* `Program.mps`: the file.
-/

namespace LinearProgramming

namespace Mps

/-- The parts of a file that follow its head. -/
inductive Part where
  | rows
  | columns
  | constants
  | ranges
  | bounds
  | finish
deriving DecidableEq, Repr

def Part.text : Part → String
  | .rows => "ROWS"
  | .columns => "COLUMNS"
  | .constants => "RHS"
  | .ranges => "RANGES"
  | .bounds => "BOUNDS"
  | .finish => "ENDATA"

/-- One record of a file. -/
inductive Record where
  | title
  | maximize
  | part (p : Part)
  | objective
  | row (relation : Relation) (r : Nat)
  | cost (v : Nat) (x : Binary)
  | coefficient (v r : Nat) (x : Binary)
  | constant (r : Nat) (x : Binary)
  | range (r : Nat) (x : Binary)
  | free (v : Nat)
  | noLower (v : Nat)
  | lower (v : Nat) (x : Binary)
  | upper (v : Nat) (x : Binary)
  | fixed (v : Nat) (x : Binary)
deriving DecidableEq, Repr

/-- The name of the objective among the rows. -/
def objectiveName : String := "OBJ"

/-- The letter for a kind of row. -/
def rowLetter : Relation → String
  | .atMost => "L"
  | .equal => "E"
  | .atLeast => "G"

/-- A number in a file. -/
def number (x : Binary) : String := Format.double.text x

/-- The line of a record. -/
def Record.text : Record → String
  | .title => "NAME LP"
  | .maximize => "OBJSENSE MAX"
  | .part p => p.text
  | .objective => " N  " ++ objectiveName
  | .row relation r => " " ++ rowLetter relation ++ "  " ++ rowName r
  | .cost v x => "    " ++ variableName v ++ " " ++ objectiveName ++ " " ++ number x
  | .coefficient v r x => "    " ++ variableName v ++ " " ++ rowName r ++ " " ++ number x
  | .constant r x => "    RHS " ++ rowName r ++ " " ++ number x
  | .range r x => "    RNG " ++ rowName r ++ " " ++ number x
  | .free v => " FR BND " ++ variableName v
  | .noLower v => " MI BND " ++ variableName v
  | .lower v x => " LO BND " ++ variableName v ++ " " ++ number x
  | .upper v x => " UP BND " ++ variableName v ++ " " ++ number x
  | .fixed v x => " FX BND " ++ variableName v ++ " " ++ number x

variable {α : Type} [Scalar α]

/-- The kind of row that bounds are written as. -/
def rowRelation (b : Bounds α) : Relation :=
  match b.kind with
  | .upper => .atMost
  | .fixed => .equal
  | _ => .atLeast

/-- The constant of a row: its upper bound if there is no other, or else its lower bound. -/
def rowConstant (b : Bounds α) : α :=
  match b.kind with
  | .upper => b.upper
  | _ => b.lower

/-- A cost is written if it is not zero, or if the column has nothing else to be known by. -/
def columnRecords (c : Column α) (v : Nat) : List Record :=
  (if !Scalar.isZero c.cost || c.entries.isEmpty then [.cost v (Scalar.toDouble c.cost)] else []) ++
    c.entries.map fun (r, x) => .coefficient v r (Scalar.toDouble x)

def constantRecords (b : Bounds α) (r : Nat) : List Record :=
  let x := rowConstant b
  if Scalar.isZero x then [] else [.constant r (Scalar.toDouble x)]

def rangeRecords (b : Bounds α) (r : Nat) : List Record :=
  if b.kind = .double then [.range r (Scalar.toDouble (b.upper - b.lower))] else []

/-- A lower bound is written unless it is zero. -/
def lowerRecords (x : α) (v : Nat) : List Record :=
  if Scalar.isZero x then [] else [.lower v (Scalar.toDouble x)]

def boundRecords (b : Bounds α) (v : Nat) : List Record :=
  match b.kind with
  | .free => [.free v]
  | .upper => [.noLower v, .upper v (Scalar.toDouble b.upper)]
  | .lower => lowerRecords b.lower v
  | .fixed => [.fixed v (Scalar.toDouble b.lower)]
  | .double => lowerRecords b.lower v ++ [.upper v (Scalar.toDouble b.upper)]

end Mps

namespace Program

variable {α : Type} [Scalar α]

open Mps

/-- The records of a program. -/
def mpsRecords (p : Program α) : List Record :=
  let ranges := p.rows.zipIdx.flatMap fun (b, r) => rangeRecords b r
  [.title] ++ (if p.sense = .maximize then [.maximize] else []) ++
    [.part .rows, .objective] ++ (p.rows.zipIdx.map fun (b, r) => .row (rowRelation b) r) ++
    [.part .columns] ++ (p.columns.zipIdx.flatMap fun (c, v) => columnRecords c v) ++
    [.part .constants] ++ (p.rows.zipIdx.flatMap fun (b, r) => constantRecords b r) ++
    (if ranges.isEmpty then [] else .part .ranges :: ranges) ++
    [.part .bounds] ++ (p.columns.zipIdx.flatMap fun (c, v) => boundRecords c.bounds v) ++
    [.part .finish]

/-- The program as a file. -/
def mps (p : Program α) : String := endLines (p.mpsRecords.map Record.text)

end Program

end LinearProgramming
