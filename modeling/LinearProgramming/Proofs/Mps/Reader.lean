import LinearProgramming.Proofs.Mps.Fields
import LinearProgramming.Proofs.Vector

/-!
# Reading an MPS file

A reader of the parts of the format that programs are written in. What a file leaves out has the
default of its part: constants and costs are zero, variables nonnegative. Rows and columns are
numbered in the order in which they are declared.

* `Draft.line`: what one line makes of the program read so far;
* `Convention`: what the range of a row that is bounded below means;
* `read`: the program of a file, where numbers are read by a function that is given, for example by
  `decimal?`;
* `readDraft_mps`: the file of a program is read record by record;
* `position_names`: names by position are found again.
-/

namespace LinearProgramming.Mps

/-- Why a text is not read. -/
inductive Misread where
  | line (fields : List String)
  | number (word : String)
  | name (word : String)
  | unfinished
deriving DecidableEq, Repr

/-- How a range `r` on a row that is bounded below by `b` is understood: as the values from `b` to
`b + r`, or from `b` to `b + |r|`. -/
inductive Convention where
  | signed
  | absolute

def Convention.width : Convention → Rat → Rat
  | .signed, r => r
  | .absolute, r => |r|

/-- A row as far as it is known. -/
structure RowDraft where
  relation : Relation
  constant : Rat
  range : Option Rat
deriving DecidableEq, Repr

/-- The bounds of a row, with the range there may be. -/
def RowDraft.bounds (convention : Convention) (d : RowDraft) : Bounds Rat :=
  match d.relation, d.range with
  | .atMost, none => ⟨-sentinel, d.constant⟩
  | .atMost, some r => ⟨d.constant - |r|, d.constant⟩
  | .equal, none => ⟨d.constant, d.constant⟩
  | .equal, some r => if 0 ≤ r then ⟨d.constant, d.constant + r⟩ else ⟨d.constant + r, d.constant⟩
  | .atLeast, none => ⟨d.constant, sentinel⟩
  | .atLeast, some r => ⟨d.constant, d.constant + convention.width r⟩

/-- A program as far as it has been read. -/
structure Draft where
  part : Option Part
  sense : Sense
  objective : Option String
  rowNames : List String
  rows : List RowDraft
  columnNames : List String
  columns : List (Column Rat)

namespace Draft

def start : Draft := ⟨none, .minimize, none, [], [], [], []⟩

def program (convention : Convention) (d : Draft) : Program Rat :=
  ⟨d.sense, d.columns, d.rows.map (RowDraft.bounds convention)⟩

/-! ## Lines -/

/-- A line that begins without a blank. -/
def head (d : Draft) : List String → Except Misread Draft
  | ["NAME", _] => .ok d
  | ["OBJSENSE", "MIN"] => .ok { d with sense := .minimize }
  | ["OBJSENSE", "MAX"] => .ok { d with sense := .maximize }
  | ["ROWS"] => .ok { d with part := some .rows }
  | ["COLUMNS"] => .ok { d with part := some .columns }
  | ["RHS"] => .ok { d with part := some .constants }
  | ["RANGES"] => .ok { d with part := some .ranges }
  | ["BOUNDS"] => .ok { d with part := some .bounds }
  | ["ENDATA"] => .ok { d with part := some .finish }
  | fields => .error (.line fields)

def addRow (d : Draft) (relation : Relation) (name : String) : Draft :=
  { d with rowNames := d.rowNames ++ [name], rows := d.rows ++ [⟨relation, 0, none⟩] }

def declareRow (d : Draft) (letter name : String) : Except Misread Draft :=
  match letter with
  | "N" => .ok { d with objective := some name }
  | "L" => .ok (d.addRow .atMost name)
  | "E" => .ok (d.addRow .equal name)
  | "G" => .ok (d.addRow .atLeast name)
  | _ => .error (.line [letter, name])

/-- The position of a name. -/
def position (names : List String) (name : String) : Except Misread Nat :=
  match names.idxOf? name with
  | some i => .ok i
  | none => .error (.name name)

def updateRow (d : Draft) (name : String) (f : RowDraft → RowDraft) : Except Misread Draft := do
  let r ← position d.rowNames name
  return { d with rows := d.rows.modify r f }

def updateBounds (d : Draft) (name : String) (f : Bounds Rat → Bounds Rat) :
    Except Misread Draft := do
  let v ← position d.columnNames name
  return { d with columns := d.columns.modify v fun c => { c with bounds := f c.bounds } }

/-- A name that is new is that of another column. -/
def declare (d : Draft) (name : String) : Draft :=
  if name ∈ d.columnNames then d
  else { d with
    columnNames := d.columnNames ++ [name]
    columns := d.columns ++ [Column.new .nonnegative] }

/-- A number in a column: its cost, or its coefficient in a row. -/
def enter (d : Draft) (column row : String) (x : Rat) : Except Misread Draft := do
  let d := d.declare column
  let v ← position d.columnNames column
  if d.objective = some row then
    return { d with columns := d.columns.modify v fun c => { c with cost := x } }
  let r ← position d.rowNames row
  return { d with columns := d.columns.modify v (Column.set r x) }

end Draft

/-- The rational that a word stands for. -/
def readNumber (number? : String → Option Binary) (word : String) : Except Misread Rat :=
  match number? word with
  | none | some .nan => .error (.number word)
  | some x => .ok (Scalar.ofDouble x)

/-- The value of a decimal without a sign, or the infinity, to the nearest double. -/
def magnitude? (negative : Bool) (word : List Char) : Option Binary :=
  if word = ['i', 'n', 'f'] then some (.infinite negative)
  else
    let whole := word.takeWhile (· != '.')
    let places := (word.drop whole.length).drop 1
    let digits := whole ++ places
    if digits ≠ [] ∧ digits.all Char.isDigit then
      some (Format.double.roundQuotient negative (Nat.ofDigitChars 10 digits 0)
        (Nat.pow 10 places.length))
    else none

/-- The double nearest to a decimal. -/
def decimal? (word : String) : Option Binary :=
  match word.toList with
  | '-' :: rest => magnitude? true rest
  | rest => magnitude? false rest

/-- What one line makes of the program read so far. -/
def Draft.line (number? : String → Option Binary) (d : Draft) (isHead : Bool)
    (fields : List String) : Except Misread Draft :=
  if isHead then d.head fields
  else
    match d.part, fields with
    | some .rows, [letter, name] => d.declareRow letter name
    | some .columns, [column, row, x] => do d.enter column row (← readNumber number? x)
    | some .constants, [_, row, x] => do
      let x ← readNumber number? x
      d.updateRow row fun y => { y with constant := x }
    | some .ranges, [_, row, x] => do
      let x ← readNumber number? x
      d.updateRow row fun y => { y with range := some x }
    | some .bounds, ["FR", _, column] => d.updateBounds column fun _ => .free
    | some .bounds, ["MI", _, column] =>
      d.updateBounds column fun b => { b with lower := -sentinel }
    | some .bounds, ["LO", _, column, x] => do
      let x ← readNumber number? x
      d.updateBounds column fun b => { b with lower := x }
    | some .bounds, ["UP", _, column, x] => do
      let x ← readNumber number? x
      d.updateBounds column fun b => { b with upper := x }
    | some .bounds, ["FX", _, column, x] => do
      let x ← readNumber number? x
      d.updateBounds column fun _ => ⟨x, x⟩
    | _, fields => .error (.line fields)

/-- What the lines of a text come to. -/
def readDraft (number? : String → Option Binary) (text : String) : Except Misread Draft :=
  (lines text).foldlM (fun d l => d.line number? (l.head? != some ' ') (fields l)) .start

/-- The program of a file. -/
def read (number? : String → Option Binary) (convention : Convention) (text : String) :
    Except Misread (Program Rat) := do
  let d ← readDraft number? text
  if d.part = some .finish then return d.program convention else throw .unfinished

/-! ## Records -/

section Record

variable {number? : String → Option Binary}

/-- What the line of a record makes of the program read so far. -/
def Draft.record (number? : String → Option Binary) (d : Draft) (t : Record) :
    Except Misread Draft := d.line number? t.isHead t.fields

/-- The file of a program is read record by record. -/
theorem readDraft_mps (p : Program Rat) :
    readDraft number? p.mps = p.mpsRecords.foldlM (Draft.record number?) .start := by
  have hline : ∀ (d : Draft) (t : Record),
      d.line number? (t.text.toList.head? != some ' ') (Mps.fields t.text.toList) =
        d.record number? t := by
    intro d t
    rw [bne, head_text, Bool.not_not, fields_text, Draft.record]
  rw [readDraft, lines_mps, List.foldlM_map]
  simp only [hline]

/-! ## Names -/

/-- A number that follows a fixed text is determined by the whole. -/
theorem append_toString_injective {base : String} {i k : Nat}
    (h : base ++ toString i = base ++ toString k) : i = k := by
  have hlist := congrArg String.toList h
  rw [String.toList_append, String.toList_append] at hlist
  have hvalue := congrArg (fun ds => Nat.ofDigitChars 10 ds 0) (List.append_cancel_left hlist)
  simpa [Nat.toString_eq_ofList_toDigits] using hvalue

theorem rowName_injective {r k : Nat} (h : rowName r = rowName k) : r = k :=
  append_toString_injective h

theorem variableName_injective {v w : Nat} (h : variableName v = variableName w) : v = w :=
  append_toString_injective h

/-- Different names are found at their own positions. -/
theorem position_names {name : Nat → String} (hname : ∀ i k, name i = name k → i = k) {n i : Nat}
    (hi : i < n) : Draft.position ((List.range n).map name) (name i) = .ok i := by
  have hfound : ((List.range n).map name).idxOf? (name i) = some i := by
    refine List.idxOf?_eq_some_iff.mpr ⟨by simpa using hi, by simp, ?_⟩
    intro k hk h
    rw [List.getElem_map, List.getElem_range] at h
    exact hk.ne (hname k i h)
  rw [Draft.position, hfound]

end Record

end LinearProgramming.Mps
