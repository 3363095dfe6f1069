import LinearProgramming.Program
import LinearProgramming.Proofs.Vector

/-!
# Points of a program

* `Program.Feasible`: the point keeps all variables and all rows within their bounds;
* `Program.Solves`: the point is nonnegative and the rows, read as equalities, hold;
* `Sense.Better`, `Program.Optimal`, `Program.Unbounded`: what the objective makes of the feasible
  points, and `Program.Cheapest`, `Program.Bottomless` of those that solve equality rows;
* `Program.Stored`, `Program.Sparse`: the cells that are stored lie in the rows of the program, in
  their order, and none of them is zero.
-/

namespace LinearProgramming

open Finset

/-! ## Weighted sums -/

/-- The sum of coordinates with weights. -/
def weigh (weights : List Rat) (x : Nat → Rat) : Rat :=
  ∑ j ∈ range weights.length, coord weights j * x j

theorem weigh_congr {weights : List Rat} {x y : Nat → Rat}
    (h : ∀ j < weights.length, x j = y j) : weigh weights x = weigh weights y :=
  Finset.sum_congr rfl fun j hj => by rw [h j (Finset.mem_range.mp hj)]

theorem weigh_append (us vs : List Rat) (x : Nat → Rat) :
    weigh (us ++ vs) x = weigh us x + weigh vs fun j => x (us.length + j) := by
  unfold weigh
  rw [List.length_append, Finset.sum_range_add]
  congr 1
  · apply sum_range_congr
    intro j hj
    simp [coord_append, hj]
  · apply sum_range_congr
    intro j _
    rw [coord_append, if_neg (by omega), Nat.add_sub_cancel_left]

theorem weigh_concat (weights : List Rat) (w : Rat) (x : Nat → Rat) :
    weigh (weights ++ [w]) x = weigh weights x + w * x weights.length := by
  rw [weigh_append]
  simp [weigh]

theorem weigh_eq_zero {weights : List Rat} (h : ∀ w ∈ weights, w = 0) (x : Nat → Rat) :
    weigh weights x = 0 := by
  apply Finset.sum_eq_zero
  intro j hj
  have hj := Finset.mem_range.mp hj
  simp [coord_of_lt hj, h _ (List.getElem_mem hj)]

theorem weigh_neg (weights : List Rat) (x : Nat → Rat) :
    weigh (weights.map fun w => -w) x = -weigh weights x := by
  unfold weigh
  rw [List.length_map, ← Finset.sum_neg_distrib]
  apply sum_range_congr
  intro j hj
  simp only [coord_map _ _ hj, coord_of_lt hj, neg_mul]

/-! ## Feasible points -/

/-- The value lies within the bounds; a missing bound admits everything on its side. -/
def Bounds.Admits (b : Bounds Rat) (x : Rat) : Prop :=
  (b.isUnboundedBelow = true ∨ b.lower ≤ x) ∧ (b.isUnboundedAbove = true ∨ x ≤ b.upper)

namespace Program

/-- The left side of a row at a point. -/
def leftSide (p : Program Rat) (x : Nat → Rat) (r : Nat) : Rat :=
  weigh (p.columns.map fun c => c.coefficient r) x

/-- The point has a value for every variable and keeps all bounds. -/
structure Feasible (p : Program Rat) (x : List Rat) : Prop where
  length : x.length = p.variableCount
  bounds : ∀ (j : Nat) (c : Column Rat), p.columns[j]? = some c → c.bounds.Admits (coord x j)
  rows : ∀ (r : Nat) (b : Bounds Rat), p.rows[r]? = some b → b.Admits (p.leftSide (coord x) r)

/-- The right-hand side of an equality row. -/
def rhs (p : Program Rat) (r : Nat) : Rat := coord (p.rows.map fun b => b.lower) r

/-- The point is nonnegative and solves the equality rows of a canonical program. -/
structure Solves (p : Program Rat) (x : List Rat) : Prop where
  length : x.length = p.variableCount
  nonneg : ∀ v ∈ x, 0 ≤ v
  rows : ∀ (r : Nat) (b : Bounds Rat), p.rows[r]? = some b → p.leftSide (coord x) r = b.lower

theorem rhs_eq {p : Program Rat} {r : Nat} {b : Bounds Rat} (h : p.rows[r]? = some b) :
    p.rhs r = b.lower := by
  obtain ⟨hr, rfl⟩ := List.getElem?_eq_some_iff.mp h
  exact coord_map _ _ hr

theorem solves_iff {p : Program Rat} {x : List Rat} : p.Solves x ↔
    x.length = p.variableCount ∧ (∀ j < p.variableCount, 0 ≤ coord x j) ∧
      ∀ r < p.rowCount, p.leftSide (coord x) r = p.rhs r := by
  constructor
  · refine fun h => ⟨h.length, fun j _ => coord_nonneg h.nonneg j, ?_⟩
    intro r hr
    have hb := List.getElem?_eq_getElem (show r < p.rows.length from hr)
    rw [h.rows r _ hb, rhs_eq hb]
  · rintro ⟨hl, hv, hr⟩
    refine ⟨hl, nonneg_of_coord (hl ▸ hv), ?_⟩
    intro r b hb
    obtain ⟨hlt, -⟩ := List.getElem?_eq_some_iff.mp hb
    rw [hr r hlt, rhs_eq hb]

theorem objective_eq (p : Program Rat) {x : List Rat} (h : x.length = p.variableCount) :
    p.objective x = weigh p.costs (coord x) := by
  have hl : p.costs.length = x.length := by rw [costs, List.length_map, h, variableCount]
  exact (foldl_zip_eq (fun c v => c * v) 0 hl).trans (zero_add _)

/-! ## Storage -/

/-- Every stored cell lies in a row of the program, and each column is in the order of the rows. -/
def Stored {α : Type} (p : Program α) : Prop :=
  ∀ c ∈ p.columns, c.entries.Ordered ∧ ∀ e ∈ c.entries, e.1 < p.rows.length

instance {α : Type} (p : Program α) : Decidable p.Stored :=
  inferInstanceAs (Decidable (∀ c ∈ p.columns, c.entries.Ordered ∧
    ∀ e ∈ c.entries, e.1 < p.rows.length))

/-- No cell that is near zero is stored. -/
def Sparse {α : Type} [Scalar α] (p : Program α) : Prop :=
  ∀ c ∈ p.columns, ∀ e ∈ c.entries, Scalar.near e.2 0 = false

instance {α : Type} [Scalar α] (p : Program α) : Decidable p.Sparse :=
  inferInstanceAs (Decidable (∀ c ∈ p.columns, ∀ e ∈ c.entries, Scalar.near e.2 0 = false))

end Program

/-! ## Optima -/

/-- One value of the objective is strictly better than another. -/
def Sense.Better : Sense → Rat → Rat → Prop
  | .minimize, v, w => v < w
  | .maximize, v, w => w < v

/-- The point is feasible and no feasible point is better. -/
def Program.Optimal (p : Program Rat) (x : List Rat) : Prop :=
  p.Feasible x ∧ ∀ y, p.Feasible y → ¬ p.sense.Better (p.objective y) (p.objective x)

/-- There are feasible points better than any given value. -/
def Program.Unbounded (p : Program Rat) : Prop :=
  ∀ value, ∃ x, p.Feasible x ∧ p.sense.Better (p.objective x) value

namespace Program

/-- The point solves the equality rows, and no other one that does is cheaper. -/
def Cheapest (p : Program Rat) (x : List Rat) : Prop :=
  p.Solves x ∧ ∀ y, p.Solves y → p.objective x ≤ p.objective y

/-- Points that solve the equality rows are cheaper than any given value. -/
def Bottomless (p : Program Rat) : Prop := ∀ value, ∃ x, p.Solves x ∧ p.objective x < value

end Program

end LinearProgramming
