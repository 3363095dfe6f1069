import LinearProgramming.Proofs.Canonical.Form
import LinearProgramming.Proofs.Conic.Columns
import LinearProgramming.Proofs.Conic.Sides

/-!
# Bounded quantities

The rows and the variables of a program are bounded in the same way.

* `Quantity`: the left side of a row, or the value of a variable; `Program.boundsOf`,
  `Program.weight` and `Program.amount` are its bounds, its coefficients and its value at a point;
* `Program.feasibleAt_iff_sides`: a point is feasible if all sides of all quantities hold;
* `Program.toDouble_bounded`: what is bounded in the rounded program, with its coefficients
  (`Representable.roundedEntries_value`).
-/

namespace LinearProgramming

open Finset

/-- What is bounded in a program: the left side of a row, or the value of a variable. -/
inductive Quantity where
  | leftSide (r : Nat)
  | value (v : Nat)
deriving DecidableEq

namespace Program

variable {p : Program Rat} {q : Quantity} {s : Side} {x : Nat → Rat}

/-- The bounds of a quantity; what the program does not have is free. -/
def boundsOf (p : Program Rat) : Quantity → Bounds Rat
  | .leftSide r => p.rows.getD r .free
  | .value v => (p.columns.map (·.bounds)).getD v .free

theorem boundsOf_leftSide {r : Nat} {b : Bounds Rat} (h : p.rows[r]? = some b) :
    p.boundsOf (.leftSide r) = b := by simp [boundsOf, h]

theorem boundsOf_value {v : Nat} {c : Column Rat} (h : p.columns[v]? = some c) :
    p.boundsOf (.value v) = c.bounds := by simp [boundsOf, h]

/-- The coefficient of a variable in a quantity. -/
def weight (p : Program Rat) : Quantity → Nat → Rat
  | .leftSide r, v => p.entry r v
  | .value w, v => if w = v then 1 else 0

/-- The quantity at a point. -/
def amount (p : Program Rat) (q : Quantity) (x : Nat → Rat) : Rat :=
  ∑ v ∈ range p.variableCount, p.weight q v * x v

/-- The quantities of a program, in the order in which they become rows. -/
def quantities (p : Program Rat) : List Quantity :=
  (List.range p.rowCount).map .leftSide ++ (List.range p.variableCount).map .value

theorem quantities_nodup (p : Program Rat) : p.quantities.Nodup := by
  refine List.nodup_append.mpr ⟨?_, ?_, ?_⟩
  · exact List.nodup_range.map fun _ _ h => Quantity.leftSide.inj h
  · exact List.nodup_range.map fun _ _ h => Quantity.value.inj h
  · simp [List.mem_map]

/-- Other quantities have no sides. -/
theorem mem_quantities (h : s ∈ (p.boundsOf q).sides) : q ∈ p.quantities := by
  have hfree : (Bounds.free : Bounds Rat).sides = [] := by decide +kernel
  have hmem : ∀ {xs : List (Bounds Rat)} {i : Nat}, s ∈ (xs.getD i .free).sides →
      i < xs.length := by
    intro xs i hs
    by_contra hi
    rw [List.getD_eq_default _ _ (Nat.le_of_not_lt hi), hfree] at hs
    cases hs
  cases q with
  | leftSide r => simpa [quantities, rowCount] using hmem h
  | value v => simpa [quantities, variableCount] using hmem h

theorem amount_leftSide (p : Program Rat) (r : Nat) (x : Nat → Rat) :
    p.amount (.leftSide r) x = p.leftSide x r := (leftSide_eq ..).symm

theorem amount_value {v : Nat} (hv : v < p.variableCount) (x : Nat → Rat) :
    p.amount (.value v) x = x v := by
  simp [amount, weight, hv]

theorem feasibleAt_iff_sides :
    p.FeasibleAt x ↔ ∀ q, ∀ s ∈ (p.boundsOf q).sides, s.Holds (p.boundsOf q) (p.amount q x) := by
  constructor
  · rintro ⟨hcolumns, hrows⟩ q s hs
    have hq := mem_quantities hs
    cases q with
    | leftSide r =>
      have hr : r < p.rows.length := by simpa [quantities, rowCount] using hq
      have hb := List.getElem?_eq_getElem hr
      rw [amount_leftSide, boundsOf_leftSide hb] at *
      exact (Bounds.admits_iff_sides ..).mp (hrows r _ hb) s hs
    | value v =>
      have hv : v < p.columns.length := by simpa [quantities, variableCount] using hq
      have hc := List.getElem?_eq_getElem hv
      rw [amount_value hv, boundsOf_value hc] at *
      exact (Bounds.admits_iff_sides ..).mp (hcolumns v _ hc) s hs
  · intro h
    refine ⟨fun v c hc => ?_, fun r b hb => ?_⟩
    · have hv := h (.value v)
      rw [amount_value (List.getElem?_eq_some_iff.mp hc).1, boundsOf_value hc] at hv
      exact (Bounds.admits_iff_sides ..).mpr hv
    · have hr := h (.leftSide r)
      rw [amount_leftSide, boundsOf_leftSide hb] at hr
      exact (Bounds.admits_iff_sides ..).mpr hr

/-! ## Entries of a row -/

theorem mem_rowEntries {r v : Nat} {a : Rat} :
    (v, a) ∈ p.rowEntries r ↔ ∃ c, p.columns[v]? = some c ∧ c.entries.lookup r = some a := by
  simp only [rowEntries, List.mem_filterMap, Prod.exists, List.mk_mem_zipIdx_iff_getElem?,
    Option.map_eq_some_iff, Prod.mk.injEq]
  constructor
  · rintro ⟨c, w, hc, b, hb, rfl, rfl⟩
    exact ⟨c, hc, hb⟩
  · rintro ⟨c, hc, ha⟩
    exact ⟨c, v, hc, a, ha, rfl, rfl⟩

theorem rowEntries_ordered (p : Program Rat) (r : Nat) : Entries.Ordered (p.rowEntries r) := by
  refine List.pairwise_filterMap.mpr ((zipIdx_sorted p.columns).imp fun {c d} hlt e he f hf => ?_)
  obtain ⟨a, -, rfl⟩ := Option.map_eq_some_iff.mp he
  obtain ⟨b, -, rfl⟩ := Option.map_eq_some_iff.mp hf
  exact hlt

theorem entry_eq_lookup (p : Program Rat) (r v : Nat) :
    p.entry r v = (List.lookup v (p.rowEntries r)).getD 0 := by
  have hget : List.lookup v (p.rowEntries r) =
      (p.columns[v]?).bind fun c => c.entries.lookup r := by
    ext a
    rw [Entries.lookup_eq_some_iff (p.rowEntries_ordered r), mem_rowEntries,
      Option.bind_eq_some_iff]
  rw [hget, entry, coord, List.getD_eq_getElem?_getD, List.getElem?_map]
  cases p.columns[v]? <;> rfl

end Program

namespace Entries

@[simp]
theorem value_neg (entries : Entries Binary) (k : Nat) :
    value (entries.map fun (i, a) => (i, a.neg)) k = -entries.value k := by
  rw [value, lookup_map fun _ => Binary.neg, Option.map_map, value]
  cases entries.lookup k with
  | none => exact neg_zero.symm
  | some a => exact a.value_neg

theorem value_toDouble {entries : Entries Rat} (h : ∀ e ∈ entries, IsDouble e.2) (k : Nat) :
    value (entries.map fun (i, a) => (i, Scalar.toDouble a)) k = (entries.lookup k).getD 0 := by
  rw [value, lookup_map fun _ => Scalar.toDouble]
  cases hk : entries.lookup k with
  | none => rfl
  | some a => exact (h _ (mem_of_lookup hk)).value

end Entries

namespace Program

variable {p : Program Rat} {q : Quantity} {s : Side} {x : Nat → Rat}

/-! ## Rounded programs -/

/-- All coefficients, and all bounds that are there, are doubles. -/
structure Representable (p : Program Rat) : Prop where
  columns : ∀ c ∈ p.columns, c.bounds.Representable
  rows : ∀ b ∈ p.rows, b.Representable
  cells : ∀ c ∈ p.columns, ∀ e ∈ c.entries, IsDouble e.2

instance (p : Program Rat) : Decidable p.Representable :=
  decidable_of_iff ((∀ c ∈ p.columns, c.bounds.Representable) ∧ (∀ b ∈ p.rows, b.Representable) ∧
    ∀ c ∈ p.columns, ∀ e ∈ c.entries, IsDouble e.2)
    ⟨fun h => ⟨h.1, h.2.1, h.2.2⟩, fun h => ⟨h.columns, h.rows, h.cells⟩⟩

theorem Representable.boundsOf (h : p.Representable) (q : Quantity) :
    (p.boundsOf q).Representable := by
  have hget : ∀ {xs : List (Bounds Rat)} {i : Nat}, (∀ b ∈ xs, b.Representable) →
      (xs.getD i .free).Representable := by
    intro xs i hxs
    by_cases hi : i < xs.length
    · exact hxs _ (getD_mem hi _)
    · rw [List.getD_eq_default _ _ (Nat.le_of_not_lt hi)]
      decide +kernel
  cases q with
  | leftSide r => exact hget h.rows
  | value v => exact hget (List.forall_mem_map.mpr h.columns)

/-- The rounded coefficients of a quantity. -/
def roundedEntries (p : Program Rat) : Quantity → List (Nat × Binary)
  | .leftSide r => (p.rowEntries r).map fun (v, a) => (v, Scalar.toDouble a)
  | .value v => [(v, Binary.one)]

theorem toDouble_bounded (p : Program Rat) : p.toDouble.bounded =
    p.quantities.map fun q => ((p.boundsOf q).toDouble, p.roundedEntries q) := by
  unfold RoundedProgram.bounded quantities toDouble
  rw [List.map_append, List.map_map, List.map_map]
  refine congrArg₂ (· ++ ·) ?_ ?_
  · refine List.ext_getElem (by simp [rowCount]) fun r hr _ => ?_
    have hr : r < p.rows.length := by simpa using hr
    simp [Program.boundsOf, roundedEntries, hr]
  · refine List.ext_getElem (by simp [variableCount]) fun v hv _ => ?_
    have hv : v < p.columns.length := by simpa using hv
    simp [Program.boundsOf, roundedEntries, hv]

theorem roundedEntries_ordered (p : Program Rat) (q : Quantity) :
    Entries.Ordered (p.roundedEntries q) := by
  cases q with
  | leftSide r => exact Entries.ordered_map (fun _ => Scalar.toDouble) (p.rowEntries_ordered r)
  | value v => exact List.pairwise_singleton ..

theorem Representable.cell (h : p.Representable) {r : Nat} {e : Nat × Rat}
    (he : e ∈ p.rowEntries r) : IsDouble e.2 := by
  obtain ⟨c, hc, ha⟩ := mem_rowEntries.mp he
  exact h.cells c (List.mem_of_getElem? hc) (r, e.2) (Entries.mem_of_lookup ha)

theorem Representable.roundedEntries_value (h : p.Representable) (q : Quantity) (v : Nat) :
    Entries.value (p.roundedEntries q) v = p.weight q v := by
  cases q with
  | leftSide r =>
    exact (Entries.value_toDouble (fun e => h.cell) v).trans (p.entry_eq_lookup r v).symm
  | value w =>
    unfold roundedEntries weight Entries.value
    rw [Entries.lookup_cons]
    by_cases hv : v = w
    · simp [hv]
    · simp [hv, Ne.symm hv]

theorem Representable.roundedEntries_isFinite (h : p.Representable) {q : Quantity}
    {e : Nat × Binary} (he : e ∈ p.roundedEntries q) : e.2.isFinite = true := by
  cases q with
  | leftSide r =>
    obtain ⟨d, hd, rfl⟩ := List.mem_map.mp he
    exact (h.cell hd).isFinite
  | value w =>
    obtain rfl := List.mem_singleton.mp he
    rfl

end Program

end LinearProgramming
