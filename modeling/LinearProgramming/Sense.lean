import LinearProgramming.Text.Blank

/-!
# Senses

What is asked of the objective, and how a row relates to its right-hand side.

* `Relation.readAll`: a list of relations, one sign each, with blanks anywhere between them.
-/

namespace LinearProgramming

/-- What is asked of the objective. -/
inductive Sense where
  | minimize
  | maximize
deriving DecidableEq, Repr, Inhabited

namespace Sense

/-- The sense of a program for which none is chosen. -/
def standard : Sense := .maximize

/-- The word of a program's text. -/
def text : Sense → String
  | .minimize => "minimize"
  | .maximize => "maximize"

/-- The name in configuration data. -/
def name : Sense → String
  | .minimize => "Minimize"
  | .maximize => "Maximize"

def all : List Sense := [.minimize, .maximize]

end Sense

/-- How a row relates to its right-hand side. -/
inductive Relation where
  | atMost
  | equal
  | atLeast
deriving DecidableEq, Repr

namespace Relation

/-- The relation of a row for which none is given. -/
def standard : Relation := .atMost

def text : Relation → String
  | .atMost => "<="
  | .equal => "=="
  | .atLeast => ">="

/-- The name in configuration data. -/
def name : Relation → String
  | .atMost => "LessEq"
  | .equal => "Equal"
  | .atLeast => "GreaterEq"

def all : List Relation := [.atMost, .equal, .atLeast]

/-- The relation of a sign. -/
def ofSign? : Char → Option Relation
  | '<' => some .atMost
  | '=' => some .equal
  | '>' => some .atLeast
  | _ => none

/-- The relations of a text of signs and blanks, or its first character that is neither. -/
def readAll : List Char → Except Char (List Relation)
  | [] => .ok []
  | c :: cs =>
    if isBlank c then readAll cs
    else match ofSign? c with
      | some r => (readAll cs).map (r :: ·)
      | none => .error c

end Relation

end LinearProgramming
