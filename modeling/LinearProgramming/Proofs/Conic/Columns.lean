import LinearProgramming.Conic.Program
import LinearProgramming.Proofs.Coefficients
import LinearProgramming.Proofs.Rounding
import Mathlib.Algebra.BigOperators.Group.List.Lemmas

/-!
# Compressed columns

A matrix by columns is three lists: where each column starts, and the row and the value of every
entry.

* `CompressedColumns.WellFormed`: what a reader of the three lists relies on;
* `entries_ofRows`: between the starts of two columns stand the nonzero entries of the first;
* `ofRows_wellFormed`, `cell_ofRows`: the matrix of rows is well formed and has their coefficients.
-/

namespace LinearProgramming

open Finset

/-- The exact value that is stored at a position, zero where there is none. -/
def Entries.value (entries : Entries Binary) (k : Nat) : Rat :=
  ((entries.lookup k).map Binary.value).getD 0

theorem Entries.value_of_mem {entries : Entries Binary} (h : entries.Ordered) {k : Nat} {x : Binary}
    (hx : (k, x) ∈ entries) : entries.value k = x.value := by
  rw [value, (lookup_eq_some_iff h).mpr hx]
  rfl

theorem Entries.value_of_not_mem {entries : Entries Binary} {k : Nat}
    (h : ∀ e ∈ entries, e.1 ≠ k) : entries.value k = 0 := by
  rw [value, lookup_eq_none h]
  rfl

/-- The exact coefficient of a variable in a row. -/
def ConicRow.coefficient (row : ConicRow) (v : Nat) : Rat := Entries.value row.entries v

namespace CompressedColumns

/-- The exact entry of the matrix in a row and a column. -/
def cell (a : CompressedColumns) (r v : Nat) : Rat := Entries.value (a.entries v) r

/-- The product of a row of the matrix and a point. -/
def leftSide (a : CompressedColumns) (x : Nat → Rat) (r : Nat) : Rat :=
  ∑ v ∈ range a.columnCount, a.cell r v * x v

/-- What a reader of the matrix relies on: the starts lead from nothing to the end, those of every
column with the next one, the rows strictly increase along a column, and they exist. -/
structure WellFormed (a : CompressedColumns) : Prop where
  starts_length : a.starts.length = a.columnCount + 1
  first : a.starts[0]? = some 0
  sorted : a.starts.Pairwise (· ≤ ·)
  last : a.starts[a.columnCount]? = some a.rows.length
  values_length : a.values.length = a.rows.length
  ordered : ∀ v < a.columnCount, Entries.Ordered (a.entries v)
  inside : ∀ r ∈ a.rows, r < a.rowCount

/-! ## Starts -/

@[simp]
theorem length_partStarts (start : Nat) (lengths : List Nat) :
    (partStarts start lengths).length = lengths.length + 1 := by
  induction lengths generalizing start with
  | nil => rfl
  | cons length rest ih => rw [partStarts, List.length_cons, ih, List.length_cons]

theorem partStarts_getElem? (start : Nat) {lengths : List Nat} {k : Nat} (hk : k ≤ lengths.length) :
    (partStarts start lengths)[k]? = some (start + (lengths.take k).sum) := by
  induction lengths generalizing start k with
  | nil =>
    obtain rfl : k = 0 := Nat.le_zero.mp hk
    rfl
  | cons length rest ih =>
    cases k with
    | zero => rfl
    | succ k =>
      rw [partStarts, List.getElem?_cons_succ, ih _ (Nat.le_of_succ_le_succ hk),
        List.take_succ_cons, List.sum_cons, Nat.add_assoc]

theorem partStarts_sorted (start : Nat) (lengths : List Nat) :
    (∀ k ∈ partStarts start lengths, start ≤ k) ∧ (partStarts start lengths).Pairwise (· ≤ ·) := by
  induction lengths generalizing start with
  | nil => exact ⟨fun k hk => (List.mem_singleton.mp hk).ge, List.pairwise_singleton ..⟩
  | cons length rest ih =>
    obtain ⟨above, tail⟩ := ih (start + length)
    have hrest : ∀ k ∈ partStarts (start + length) rest, start ≤ k := fun k hk =>
      (Nat.le_add_right start length).trans (above k hk)
    exact ⟨List.forall_mem_cons.mpr ⟨le_rfl, hrest⟩, List.pairwise_cons.mpr ⟨hrest, tail⟩⟩

/-! ## Entries -/

section Columns

variable {rows : List ConicRow} {n r v : Nat}

/-- The entries of a column are those that the rows have for its variable, zeros left out. -/
theorem mem_column {x : Binary} : (r, x) ∈ column rows v ↔
    ∃ row, rows[r]? = some row ∧ (v, x) ∈ row.entries ∧ x.isZero = false := by
  unfold column
  rw [List.mem_flatMap]
  constructor
  · rintro ⟨⟨row, i⟩, hi, hx⟩
    obtain ⟨⟨w, y⟩, hy, he⟩ := List.mem_map.mp hx
    obtain ⟨hmem, hkey⟩ := List.mem_filter.mp hy
    cases he
    simp only [Bool.and_eq_true, beq_iff_eq, Bool.not_eq_true'] at hkey
    obtain ⟨rfl, hzero⟩ := hkey
    exact ⟨row, List.mem_zipIdx_iff_getElem?.mp hi, hmem, hzero⟩
  · rintro ⟨row, hrow, hx, hzero⟩
    refine ⟨(row, r), List.mem_zipIdx_iff_getElem?.mpr hrow, List.mem_map.mpr ⟨(v, x), ?_, rfl⟩⟩
    exact List.mem_filter.mpr ⟨hx, by simp [hzero]⟩

/-- Where no row has two entries for one variable, no column has two entries in one row. -/
theorem column_ordered (h : ∀ row ∈ rows, Entries.Ordered row.entries) (v : Nat) :
    Entries.Ordered (column rows v) := by
  refine List.pairwise_flatMap.mpr ⟨?_, ?_⟩
  · rintro ⟨row, i⟩ hi
    have hrow := h row (List.fst_mem_of_mem_zipIdx hi)
    rw [List.pairwise_map, List.pairwise_filter]
    refine hrow.imp fun {d e} hlt hd he => ?_
    simp only [Bool.and_eq_true, beq_iff_eq] at hd he
    exact absurd (hd.1.trans he.1.symm) hlt.ne
  · refine (zipIdx_sorted rows).imp fun {s t} hlt d hd e he => ?_
    obtain ⟨a, -, rfl⟩ := List.mem_map.mp hd
    obtain ⟨b, -, rfl⟩ := List.mem_map.mp he
    exact hlt

/-- A column has the coefficients of its variable. -/
theorem column_value (h : ∀ row ∈ rows, Entries.Ordered row.entries) {row : ConicRow}
    (hrow : rows[r]? = some row) (v : Nat) :
    Entries.value (column rows v) r = row.coefficient v := by
  have hordered := h row (List.mem_of_getElem? hrow)
  have hcolumn := column_ordered h v
  have hmem (x : Binary) : (r, x) ∈ column rows v ↔ (v, x) ∈ row.entries ∧ x.isZero = false := by
    rw [mem_column]
    constructor
    · rintro ⟨q, hq, hx⟩
      exact Option.some.inj (hq.symm.trans hrow) ▸ hx
    · exact fun hx => ⟨row, hrow, hx⟩
  by_cases hx : ∃ x, (v, x) ∈ row.entries ∧ x.isZero = false
  · obtain ⟨x, hx, hzero⟩ := hx
    rw [Entries.value_of_mem hcolumn ((hmem x).mpr ⟨hx, hzero⟩), ConicRow.coefficient,
      Entries.value_of_mem hordered hx]
  · -- what is left out is zero
    have hnone : ∀ e ∈ column rows v, e.1 ≠ r := by
      rintro ⟨i, x⟩ he rfl
      exact hx ⟨x, (hmem x).mp he⟩
    rw [Entries.value_of_not_mem hnone, ConicRow.coefficient]
    by_cases hy : ∃ y, (v, y) ∈ row.entries
    · obtain ⟨y, hy⟩ := hy
      rw [Entries.value_of_mem hordered hy, Binary.value_of_isZero]
      exact Bool.not_eq_false _ ▸ fun hzero => hx ⟨y, hy, hzero⟩
    · refine (Entries.value_of_not_mem ?_).symm
      rintro ⟨w, y⟩ he rfl
      exact hy ⟨y, he⟩

/-! ## The matrix of rows -/

theorem starts_ofRows {k : Nat} (hk : k ≤ n) : (ofRows n rows).starts[k]? =
    some ((((List.range n).map (column rows)).map List.length).take k).sum := by
  rw [ofRows, partStarts_getElem? 0 (by simpa using hk), Nat.zero_add]

/-- Between the starts of two columns stand the entries of the first. -/
theorem entries_ofRows (hv : v < n) : (ofRows n rows).entries v = column rows v := by
  have hcolumn : v < ((List.range n).map (column rows)).length := by simpa using hv
  have hslice := List.drop_take_succ_flatten_eq_getElem ((List.range n).map (column rows)) v hcolumn
  have hzip : (ofRows n rows).rows.zip (ofRows n rows).values =
      ((List.range n).map (column rows)).flatten := by
    simp only [ofRows, List.zip_map', Prod.mk.eta, List.map_id']
  unfold entries
  rw [starts_ofRows hv.le, starts_ofRows hv, hzip]
  simp only [Option.getD_some]
  rw [← List.drop_take, hslice, List.getElem_map, List.getElem_range]

theorem cell_ofRows (h : ∀ row ∈ rows, Entries.Ordered row.entries) {row : ConicRow}
    (hrow : rows[r]? = some row) (hv : v < n) : (ofRows n rows).cell r v = row.coefficient v := by
  rw [cell, entries_ofRows hv, column_value h hrow]

theorem ofRows_wellFormed (h : ∀ row ∈ rows, Entries.Ordered row.entries) (n : Nat) :
    (ofRows n rows).WellFormed where
  starts_length := by simp [ofRows]
  first := (starts_ofRows (Nat.zero_le n)).trans (by simp)
  sorted := (partStarts_sorted ..).2
  last := by
    rw [show (ofRows n rows).columnCount = n from rfl, starts_ofRows le_rfl,
      List.take_of_length_le (by simp), ofRows, List.length_map, List.length_flatten]
  values_length := by simp only [ofRows, List.length_map]
  ordered v hv := by
    rw [entries_ofRows (show v < n from hv)]
    exact column_ordered h v
  inside r hr := by
    obtain ⟨⟨i, x⟩, he, rfl⟩ := List.mem_map.mp hr
    obtain ⟨part, hpart, he⟩ := List.mem_flatten.mp he
    obtain ⟨v, -, rfl⟩ := List.mem_map.mp hpart
    obtain ⟨row, hrow, -⟩ := mem_column.mp he
    exact (List.getElem?_eq_some_iff.mp hrow).1

end Columns
end CompressedColumns
end LinearProgramming
