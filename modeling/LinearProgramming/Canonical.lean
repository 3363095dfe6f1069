import LinearProgramming.Event
import LinearProgramming.Program
import LinearProgramming.Recovery

/-!
# Canonical form

A program is canonical if it minimizes over the nonnegative points of equality rows, and no
right-hand side is negative. Every program has a canonical form from which its own points are
recovered. It is reached in passes, each a function on programs:

* `substitute`: every variable is replaced by nonnegative ones. A free variable is split in two, an
  upper bound is reflected, a lower bound moves to zero and leaves an upper bound as a new row.
* `splitRanges`: a row with two different finite bounds becomes two rows.
* `addSlacks`: a row with one bound becomes an equality with a new variable.
* `makeNonnegative`: rows with a negative right-hand side change sign.
* `orient`: a maximization becomes the minimization of the negated costs.
-/

namespace LinearProgramming

variable {α : Type} [Scalar α]

/-- All variables are nonnegative, all rows equalities with a right-hand side that is not clearly
negative, and the objective is minimized. -/
def Program.isCanonical (p : Program α) : Bool :=
  p.sense == .minimize &&
    p.columns.all (fun c => Scalar.same c.bounds.lower 0) &&
    p.columns.all (fun c => c.bounds.isUnboundedAbove) &&
    p.rows.all (fun b => Scalar.same b.lower b.upper) &&
    p.rows.all (fun b => !Scalar.below b.lower 0)

/-! ## Substituting variables -/

/-- A program whose variables are being replaced: those already replaced, new ones that will follow
all of them, the rows so far, and how to recover each replaced variable. -/
structure Substitution (α : Type) where
  replaced : List (Column α)
  partners : List (Column α)
  rows : List (Bounds α)
  recoveries : List (Recovery α)

namespace Substitution

/-- Moves the bounds of every row by its coefficient times a constant part of the variable. -/
def shiftRows (rows : List (Bounds α)) (entries : Entries α) (constant : α) :
    List (Bounds α) :=
  entries.foldl (fun rows e => rows.modify e.1 fun b => b.shiftDown (e.2 * constant)) rows

/-- A free variable becomes the difference of two. -/
def split (s : Substitution α) (count : Nat) (c : Column α) : Substitution α where
  replaced := s.replaced ++ [{ c with bounds := .nonnegative }]
  partners := s.partners ++ [⟨.nonnegative, -c.cost, c.entries.mapValues fun _ x => -x⟩]
  rows := s.rows
  recoveries := s.recoveries ++ [⟨some (count + s.partners.length), 1, 0⟩]

/-- A variable with an upper bound only becomes its distance from it. -/
def reflect (s : Substitution α) (c : Column α) : Substitution α where
  replaced := s.replaced ++ [⟨.nonnegative, -c.cost, c.entries.mapValues fun _ x => -x⟩]
  partners := s.partners
  rows := shiftRows s.rows c.entries c.bounds.upper
  recoveries := s.recoveries ++ [⟨none, -1, c.bounds.upper⟩]

/-- A variable with a lower bound becomes its distance from it, and an upper bound a new row. -/
def shift (s : Substitution α) (c : Column α) : Substitution α :=
  let rows := shiftRows s.rows c.entries c.bounds.lower
  let bounded := !c.bounds.isUnboundedAbove
  { replaced := s.replaced ++
      [⟨.nonnegative, c.cost, if bounded then c.entries ++ [(rows.length, 1)] else c.entries⟩]
    partners := s.partners
    rows := if bounded then rows ++ [.upTo (c.bounds.upper - c.bounds.lower)] else rows
    recoveries := s.recoveries ++ [⟨none, 1, c.bounds.lower⟩] }

/-- Replaces one more variable, of `count` in all. -/
def replace (count : Nat) (s : Substitution α) (c : Column α) : Substitution α :=
  if c.bounds.isUnboundedBelow then
    if c.bounds.isUnboundedAbove then s.split count c else s.reflect c
  else s.shift c

/-- The program that a substitution has come to. -/
def program (s : Substitution α) (sense : Sense) : Program α :=
  ⟨sense, s.replaced ++ s.partners, s.rows⟩

end Substitution

/-- Replaces all variables of a program, in order. -/
def Program.substitution (p : Program α) : Substitution α :=
  p.columns.foldl (Substitution.replace p.variableCount) ⟨[], [], p.rows, []⟩

namespace Program

def substitute (p : Program α) : Program α := p.substitution.program p.sense

/-! ## Rows -/

/-- The row has two different finite bounds. -/
def isRange (b : Bounds α) : Bool := b.kind == .double

/-- The position of the row that takes over the upper bound of a range. -/
def upperPart? (rows : List (Bounds α)) (r : Nat) : Option Nat :=
  match rows[r]? with
  | some b =>
    if isRange b then some (rows.length + ((rows.take r).filter isRange).length) else none
  | none => none

/-- Splits every range into a lower bound and, at the end, an upper bound. -/
def splitRanges (p : Program α) : Program α where
  sense := p.sense
  columns := p.columns.map fun c =>
    { c with entries := c.entries ++
        c.entries.filterMap fun (r, x) => (upperPart? p.rows r).map fun r' => (r', x) }
  rows :=
    (p.rows.map fun b => if isRange b then ⟨b.lower, Scalar.infinity⟩ else b) ++
      (p.rows.filter isRange).map fun b => .upTo b.upper

/-- The coefficient of the slack of a row, none for an equality. -/
def slack? (b : Bounds α) : Option α :=
  if b.isUnboundedBelow then some 1 else if b.isUnboundedAbove then some (-1) else none

/-- The equality of a row and its slack. -/
def tighten (b : Bounds α) : Bounds α :=
  if b.isUnboundedBelow then ⟨b.upper, b.upper⟩
  else if b.isUnboundedAbove then ⟨b.lower, b.lower⟩
  else b

/-- Makes every row an equality. -/
def addSlacks (p : Program α) : Program α where
  sense := p.sense
  columns := p.columns ++ p.rows.zipIdx.filterMap fun (b, r) =>
    (slack? b).map fun x => ⟨.nonnegative, 0, [(r, x)]⟩
  rows := p.rows.map tighten

/-- The row is clearly negative on its right-hand side. -/
def isNegative (b : Bounds α) : Bool := Scalar.below b.upper 0

/-- Changes the sign of rows with a negative right-hand side. -/
def makeNonnegative (p : Program α) : Program α where
  sense := p.sense
  columns := p.columns.map fun c =>
    { c with entries := c.entries.mapValues fun r x =>
        if (p.rows[r]?).any isNegative then -x else x }
  rows := p.rows.map fun b => if isNegative b then ⟨-b.lower, -b.upper⟩ else b

/-- Makes the objective a minimization. -/
def orient (p : Program α) : Program α :=
  match p.sense with
  | .minimize => p
  | .maximize =>
    { p with
      sense := .minimize
      columns := p.columns.map fun c => { c with cost := -c.cost } }

end Program

/-- A canonical program, with the way back to the variables of another. -/
structure CanonicalForm (α : Type) where
  program : Program α
  recoveries : List (Recovery α)
deriving DecidableEq, Repr

/-- The canonical form of a program. -/
def Program.canonicalForm (p : Program α) : CanonicalForm α where
  program := p.substitute.splitRanges.addSlacks.makeNonnegative.orient
  recoveries := p.substitution.recoveries

/-- The report on a canonical form that was reached from a program. -/
def CanonicalForm.event (f : CanonicalForm α) (p : Program α) : Event :=
  .canonicalForm f.program.variableCount f.program.rowCount p.variableCount p.rowCount

end LinearProgramming
