import LinearProgramming.Program

/-!
# Programs as text

A program for people to read: the objective, the rows and the bounds, one to a line.
-/

namespace LinearProgramming

/-- The name of a variable. -/
def variableName (v : Nat) : String := "x" ++ toString v

/-- The name of a row. -/
def rowName (r : Nat) : String := "c" ++ toString r

/-- The lines, each ended. -/
def endLines (lines : List String) : String := String.join (lines.map (· ++ "\n"))

namespace Program

variable {α : Type} [Scalar α]

/-- A linear combination of variables. -/
def combinationText (terms : List (Nat × α)) : String :=
  if terms.isEmpty then "0"
  else " + ".intercalate (terms.map fun (v, c) => Scalar.text c ++ "*" ++ variableName v)

/-- The objective, without the costs that are near zero. -/
def objectiveText (p : Program α) : String :=
  let terms := p.costs.zipIdx.filter fun (c, _) => !Scalar.near c 0
  p.sense.text ++ " " ++ combinationText (terms.map fun (c, v) => (v, c))

/-- Something between its bounds. -/
def betweenText (bounds : Bounds α) (middle : String) : String :=
  Scalar.boundText bounds.lower ++ " <= " ++ middle ++ " <= " ++ Scalar.boundText bounds.upper

/-- The program in text. -/
def text (p : Program α) : String :=
  endLines <|
    [p.objectiveText, "subject to"] ++
    (p.rows.zipIdx.map fun (b, r) =>
      "  " ++ rowName r ++ ": " ++ betweenText b (combinationText (p.rowEntries r))) ++
    ["bounds"] ++
    (p.columns.zipIdx.map fun (c, v) => "  " ++ betweenText c.bounds (variableName v))

end Program

end LinearProgramming
