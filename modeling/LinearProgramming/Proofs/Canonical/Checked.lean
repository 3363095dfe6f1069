import LinearProgramming.Proofs.Canonical.Standard
import LinearProgramming.Simplex.Vector

/-!
# Every row that is read exists

The canonical form is reached by passes that look up rows by the positions that cells are stored at.
Here they are again, with a fault wherever such a position is beyond the end:

* `Substitution.replaceChecked`: the rows that a variable occurs in move;
* `Program.splitRangesChecked`: a cell is copied to the upper part of its row;
* `Program.makeNonnegativeChecked`: a cell changes sign with its row;
* `Program.canonicalFormChecked_eq_ok`: in a stored program none of them meets a fault, and they
  come to the canonical form.
-/

namespace LinearProgramming

section Passes

variable {α : Type} [Scalar α]

namespace Substitution

/-- Moves the rows of a column, all of which must exist. -/
def shiftRowsChecked (rows : List (Bounds α)) (entries : Entries α) (constant : α) :
    Except Fault (List (Bounds α)) :=
  entries.foldlM (fun rows e => do
    assign rows e.1 ((← fetch rows e.1).shiftDown (e.2 * constant))) rows

def reflectChecked (s : Substitution α) (c : Column α) : Except Fault (Substitution α) := do
  let rows ← shiftRowsChecked s.rows c.entries c.bounds.upper
  return { s.reflect c with rows }

def shiftChecked (s : Substitution α) (c : Column α) : Except Fault (Substitution α) := do
  let rows ← shiftRowsChecked s.rows c.entries c.bounds.lower
  return { s.shift c with
    rows := if c.bounds.isUnboundedAbove then rows
      else rows ++ [.upTo (c.bounds.upper - c.bounds.lower)] }

def replaceChecked (count : Nat) (s : Substitution α) (c : Column α) :
    Except Fault (Substitution α) :=
  if c.bounds.isUnboundedBelow then
    if c.bounds.isUnboundedAbove then .ok (s.split count c) else s.reflectChecked c
  else s.shiftChecked c

end Substitution

namespace Program

def substituteChecked (p : Program α) : Except Fault (Substitution α) :=
  p.columns.foldlM (Substitution.replaceChecked p.variableCount) ⟨[], [], p.rows, []⟩

/-- Copies every cell to the upper part of its row, if `parts` has one there. -/
def copyCellsChecked (parts : List (Option Nat)) (c : Column α) : Except Fault (Column α) := do
  let copies ← c.entries.mapM fun e => return (← fetch parts e.1).map fun r => (r, e.2)
  return { c with entries := c.entries ++ copies.filterMap id }

def splitRangesChecked (p : Program α) : Except Fault (Program α) := do
  let columns ← p.columns.mapM
    (copyCellsChecked ((List.range p.rows.length).map (upperPart? p.rows)))
  return { p.splitRanges with columns }

/-- Changes the sign of every cell in whose row `flips` says so. -/
def flipCellsChecked (flips : List Bool) (c : Column α) : Except Fault (Column α) := do
  let entries ← c.entries.mapM fun e => return (e.1, if ← fetch flips e.1 then -e.2 else e.2)
  return { c with entries }

def makeNonnegativeChecked (p : Program α) : Except Fault (Program α) := do
  let columns ← p.columns.mapM (flipCellsChecked (p.rows.map isNegative))
  return { p.makeNonnegative with columns }

/-- The canonical form, or a fault where a row that is read does not exist. -/
def canonicalFormChecked (p : Program α) : Except Fault (CanonicalForm α) := do
  let s ← p.substituteChecked
  let q ← (s.program p.sense).splitRangesChecked
  let t ← q.addSlacks.makeNonnegativeChecked
  return ⟨t.orient, s.recoveries⟩

end Program

end Passes

/-! ## Substituting variables -/

namespace Substitution

theorem shiftRowsChecked_eq_ok {rows : List (Bounds Rat)} {entries : Entries Rat}
    (h : ∀ e ∈ entries, e.1 < rows.length) (constant : Rat) :
    shiftRowsChecked rows entries constant = .ok (shiftRows rows entries constant) := by
  induction entries generalizing rows with
  | nil => rfl
  | cons e rest ih =>
    have he := h e List.mem_cons_self
    have hmodify : rows.modify e.1 (fun b => b.shiftDown (e.2 * constant)) =
        rows.set e.1 (rows[e.1].shiftDown (e.2 * constant)) := by
      simp [List.modify_eq_set_getElem?, he]
    rw [shiftRowsChecked, List.foldlM_cons, bind_eq (fetch_eq_ok he), bind_eq (assign_eq_ok _ he),
      shiftRows, List.foldl_cons, hmodify]
    exact ih fun d hd => by
      rw [List.length_set]
      exact h d (List.mem_cons_of_mem e hd)

variable {s : Substitution Rat} {n : Nat} {c : Column Rat}

theorem replaceChecked_eq_ok (h : ∀ e ∈ c.entries, e.1 < s.rows.length) :
    s.replaceChecked n c = .ok (s.replace n c) := by
  have hrows := shiftRowsChecked_eq_ok h
  unfold replaceChecked replace
  cases c.bounds.isUnboundedBelow
  · simp only [Bool.false_eq_true, if_false, shiftChecked]
    rw [bind_eq (hrows _)]
    unfold shift
    cases c.bounds.isUnboundedAbove <;> rfl
  · cases c.bounds.isUnboundedAbove
    · simp only [Bool.false_eq_true, if_false, if_true, reflectChecked]
      rw [bind_eq (hrows _)]
      rfl
    · rfl

/-- Rows only become more, so the cells of later variables stay in them. -/
theorem foldlM_replaceChecked {cs : List (Column Rat)}
    (h : ∀ c ∈ cs, ∀ e ∈ c.entries, e.1 < s.rows.length) :
    cs.foldlM (replaceChecked n) s = .ok (cs.foldl (replace n) s) := by
  induction cs generalizing s with
  | nil => rfl
  | cons c rest ih =>
    rw [List.foldlM_cons, bind_eq (replaceChecked_eq_ok (h c List.mem_cons_self)), List.foldl_cons]
    exact ih fun d hd e he => (h d (List.mem_cons_of_mem c hd) e he).trans_le rows_length_le

end Substitution

namespace Program

variable {p : Program Rat}

theorem substituteChecked_eq_ok (hp : p.Stored) : p.substituteChecked = .ok p.substitution :=
  Substitution.foldlM_replaceChecked fun c hc => (hp c hc).2

/-! ## Rows -/

theorem copyCellsChecked_eq_ok {rows : List (Bounds Rat)} {c : Column Rat}
    (h : ∀ e ∈ c.entries, e.1 < rows.length) :
    copyCellsChecked ((List.range rows.length).map (upperPart? rows)) c =
      .ok (withUpperParts rows c) := by
  have hcopies : (c.entries.mapM fun e => do
      return (← fetch ((List.range rows.length).map (upperPart? rows)) e.1).map fun r => (r, e.2)) =
        Except.ok (ε := Fault)
          (c.entries.map fun e => (upperPart? rows e.1).map fun r => (r, e.2)) := by
    apply mapM_eq_ok
    intro e he
    have hlt : e.1 < ((List.range rows.length).map (upperPart? rows)).length := by
      simpa using h e he
    rw [bind_eq (fetch_eq_ok hlt), List.getElem_map, List.getElem_range]
    rfl
  rw [copyCellsChecked, bind_eq hcopies, List.filterMap_map]
  rfl

theorem splitRangesChecked_eq_ok (hp : p.Stored) : p.splitRangesChecked = .ok p.splitRanges := by
  rw [splitRangesChecked, bind_eq (mapM_eq_ok fun c hc => copyCellsChecked_eq_ok (hp c hc).2)]
  rfl

theorem flipCellsChecked_eq_ok {rows : List (Bounds Rat)} {c : Column Rat}
    (h : ∀ e ∈ c.entries, e.1 < rows.length) :
    flipCellsChecked (rows.map isNegative) c = .ok { c with
      entries := c.entries.mapValues fun r x => if (rows[r]?).any isNegative then -x else x } := by
  have hentries : (c.entries.mapM fun e => do
      return (e.1, if ← fetch (rows.map isNegative) e.1 then -e.2 else e.2)) =
        Except.ok (ε := Fault) (c.entries.mapValues fun r x =>
          if (rows[r]?).any isNegative then -x else x) := by
    apply mapM_eq_ok
    intro e he
    have hlt := h e he
    have hmap : e.1 < (rows.map isNegative).length := by rwa [List.length_map]
    simp only [bind_eq (fetch_eq_ok hmap), List.getElem_map, List.getElem?_eq_getElem hlt]
    rfl
  rw [flipCellsChecked, bind_eq hentries]
  rfl

theorem makeNonnegativeChecked_eq_ok (hp : p.Stored) :
    p.makeNonnegativeChecked = .ok p.makeNonnegative := by
  rw [makeNonnegativeChecked, bind_eq (mapM_eq_ok fun c hc => flipCellsChecked_eq_ok (hp c hc).2)]
  rfl

/-! ## The form -/

/-- Every row that the passes read exists. -/
theorem canonicalFormChecked_eq_ok (hp : p.Stored) :
    p.canonicalFormChecked = .ok p.canonicalForm := by
  have hs := substitute_stored hp
  unfold canonicalFormChecked
  rw [bind_eq (substituteChecked_eq_ok hp)]
  change (p.substitute.splitRangesChecked >>= _) = _
  rw [bind_eq (splitRangesChecked_eq_ok hs),
    bind_eq (makeNonnegativeChecked_eq_ok (addSlacks_stored (splitRanges_stored hs)))]
  rfl

end Program

end LinearProgramming
