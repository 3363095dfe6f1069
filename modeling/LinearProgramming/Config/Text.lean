import LinearProgramming.Config
import LinearProgramming.Json

/-!
# Configurations as text

* `Config.read?`: the configuration of a JSON text. Members that are missing are standard, unknown
  ones mean nothing, and none may be given twice. An array gives the members in order.
* `Config.text`: the JSON text of a configuration.
-/

namespace LinearProgramming

/-- Why a configuration cannot be read. -/
inductive ConfigError where
  | unreadable (path : String)
  | malformed
deriving DecidableEq, Repr

def ConfigError.message : ConfigError → String
  | .unreadable path => "Could not read configuration file " ++ path
  | .malformed => "Invalid configuration"

namespace Config

/-! ## Reading -/

/-- A choice among names: the name itself, or an object with the name and nothing in it. -/
def readChoice {α : Type} (name : α → String) (xs : List α) : Json → Option α
  | .string (some s) => named? name xs (String.ofList s)
  | .object [(some s, .null)] => named? name xs (String.ofList s)
  | _ => none

def readSolver : Json → Option Solver := readChoice Solver.name Solver.all

def readMethod : Json → Option Method := readChoice Method.name Method.all

def readPresolve : Json → Option Bool
  | .bool b => some b
  | _ => none

def readVerbosity : Json → Option Verbosity := readChoice Verbosity.name Verbosity.levels

/-- What is read from the values given for a member: none for the standard, or one. -/
def readMember {α : Type} (read : Json → Option α) (standard : α) : List Json → Option α
  | [] => some standard
  | [j] => read j
  | _ => none

/-- The configuration of the values that `given` finds for each member. -/
def ofMembers (given : Nat → String → List Json) : Option Config := do
  let solver ← readMember readSolver standard.solver (given 0 "solver")
  let method ← readMember readMethod standard.method (given 1 "method")
  let presolve ← readMember readPresolve standard.presolve (given 2 "presolve")
  let verbosity ← readMember readVerbosity standard.verbosity (given 3 "msg_level")
  return { solver, method, presolve, verbosity }

/-- The configuration of a JSON value. -/
def ofJson? : Json → Option Config
  | .object members =>
    if members.all fun m => m.1.isSome then
      ofMembers fun _ name =>
        (members.filter fun m => m.1 == some name.toList).map (·.2)
    else none
  | .array items =>
    if items.length ≤ 4 then ofMembers fun i _ => items[i]?.toList else none
  | _ => none

/-- The configuration of a text. -/
def read? (text : String) : Option Config := (Json.read? text.toList).bind ofJson?

/-- The configuration of a text. -/
def ofText (text : String) : Except ConfigError Config :=
  match read? text with
  | some c => .ok c
  | none => .error .malformed

/-- The configuration of a file, from its bytes if it could be read at all. -/
def ofFile (path : String) (contents : Option ByteArray) : Except ConfigError Config :=
  match contents.bind String.fromUTF8? with
  | some text => ofText text
  | none => .error (.unreadable path)

/-! ## Writing -/

/-- A name in quotes. -/
def quoted (name : String) : String := "\"" ++ name ++ "\""

/-- A member on a line of its own. -/
def memberText (name value : String) : String := "  " ++ quoted name ++ ": " ++ value

/-- The text of a configuration. -/
def text (c : Config) : String :=
  "\x7b\n" ++
    ",\n".intercalate
      [memberText "solver" (quoted c.solver.name),
        memberText "method" (quoted c.method.name),
        memberText "presolve" (if c.presolve then "true" else "false"),
        memberText "msg_level" (quoted c.verbosity.name)] ++
    "\n\x7d"

end Config

end LinearProgramming
