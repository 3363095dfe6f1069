import Mathlib.LinearAlgebra.Matrix.NonsingularInverse
import LinearProgramming.Proofs.Simplex.Cycle

/-!
# States between turns

What a state of the engine is made of fits together whenever a turn begins: the stored inverse, the
basis, the marks, the values and the costs of the basis.

* `State.Consistent`: everything that is kept beside the matrix, in terms of the matrix;
* `State.Invariant.consistent`: it follows from what the proofs carry along a run;
* `State.Turned.artificials`, `State.Reaches.artificials`: an artificial variable that is out of
  the basis never comes back;
* `runs_consistent`: the states that a run on a canonical program goes through.
-/

namespace LinearProgramming.Simplex

open Finset

namespace State

variable {p : Program Rat} {kept : List Nat} {s t : State Rat}

/-! ## The parts of a state -/

/-- The stored inverse as a matrix. -/
def inverseMatrix (s : State Rat) : Matrix (Fin s.rowCount) (Fin s.rowCount) Rat :=
  .of fun i k => coord (s.row i).inverse k

/-- The columns of the basis as a matrix. An artificial variable has the unit vector of the row that
it is basic in. -/
def basisMatrix (s : State Rat) : Matrix (Fin s.rowCount) (Fin s.rowCount) Rat :=
  .of fun k i =>
    if (s.row i).basic < s.variableCount then coord (s.column (s.row i).basic) k
    else if k = i then 1 else 0

/-- The state of a run on a program of which the rows at the positions `kept` are left. -/
structure Consistent (p : Program Rat) (kept : List Nat) (s : State Rat) : Prop where
  columns : s.columns = p.columns.map fun c => kept.map c.coefficient
  rowCount : s.rowCount = kept.length
  rows_kept : kept.Sublist (List.range p.rowCount)
  rows_full : s.phase = .one → kept = List.range p.rowCount
  inverse_square : ∀ r ∈ s.rows, r.inverse.length = s.rowCount
  inverse : s.inverseMatrix * s.basisMatrix = 1
  basis_nodup : s.basis.Nodup
  marked : ∀ j < p.variableCount, s.marked j = true ↔ j ∈ s.basis
  own_row : ∀ (i v : Nat), s.basis[i]? = some v → p.variableCount ≤ v → v = p.variableCount + i
  structural : s.phase = .two → ∀ v ∈ s.basis, v < p.variableCount
  nonbasic : ∀ v, v ∉ s.basis → s.value v = 0
  nonneg : ∀ x ∈ s.values, 0 ≤ x
  balanced : ∀ q < s.rowCount, ∑ j ∈ range p.variableCount, coord (s.column j) q * s.value j +
    s.value (p.variableCount + kept.getD q 0) = p.rhs (kept.getD q 0)
  cost_one : s.phase = .one → ∀ i < s.rowCount,
    (s.row i).cost = if (s.row i).basic < p.variableCount then 0 else 1
  cost_two : s.phase = .two → ∀ i < s.rowCount, (s.row i).cost = coord p.costs (s.row i).basic

theorem basis_getElem?_eq_some {i v : Nat} :
    s.basis[i]? = some v ↔ i < s.rowCount ∧ (s.row i).basic = v := by
  rw [basis, List.getElem?_map, Option.map_eq_some_iff]
  constructor
  · rintro ⟨r, hr, rfl⟩
    obtain ⟨hi, rfl⟩ := List.getElem?_eq_some_iff.mp hr
    exact ⟨hi, by rw [row_eq hi]⟩
  · rintro ⟨hi, rfl⟩
    exact ⟨_, List.getElem?_eq_getElem hi, by rw [row_eq hi]⟩

theorem mem_basis {v : Nat} : v ∈ s.basis ↔ ∃ i < s.rowCount, (s.row i).basic = v := by
  simp only [List.mem_iff_getElem?, basis_getElem?_eq_some]

/-! ## From the invariant -/

/-- The variables of the program and the artificial one of a row add up to the right-hand side. -/
theorem Solved.balanced {b : Nat → Rat} (h : s.Solved b) {k : Nat} (hk : k < s.rowCount) :
    ∑ j ∈ range s.variableCount, coord (s.column j) k * s.value j +
      s.value (s.variableCount + k) = b k := by
  rw [h.sum_variables fun v hv => by rw [h.other_value v hv, mul_zero],
    h.eq_sum_basic (h.other_value (s.variableCount + k)), ← Finset.sum_add_distrib,
    ← h.rows_hold hk]
  apply sum_range_congr
  intro i _
  unfold fullColumn
  -- a basic variable is one of the program, the artificial one of the row, or that of another row
  by_cases hb : (s.row i).basic < s.variableCount
  · rw [if_pos hb, if_pos hb, if_neg (by omega), add_zero]
  · rw [if_neg hb, if_neg hb, zero_add, ite_mul, one_mul, zero_mul]
    split
    · next e => rw [e]
    · rfl

namespace Invariant

/-- The column of a basic variable, artificial or not. -/
theorem basisMatrix_apply (h : s.Invariant p kept) (k i : Fin s.rowCount) :
    s.basisMatrix k i = s.fullColumn (s.row i).basic k := by
  simp only [basisMatrix, Matrix.of_apply, fullColumn]
  split
  · rfl
  · next hb =>
    rw [h.solved.own i i.isLt (Nat.le_of_not_lt hb)]
    simp only [Nat.add_left_cancel_iff, Fin.ext_iff, eq_comm]

theorem inverse_mul_basis (h : s.Invariant p kept) : s.inverseMatrix * s.basisMatrix = 1 := by
  ext i r
  rw [Matrix.mul_apply, Matrix.one_apply]
  simp only [h.basisMatrix_apply, inverseMatrix, Matrix.of_apply, Fin.ext_iff]
  rw [← h.solved.inverse i i.isLt r r.isLt, express, Finset.sum_range]

theorem basis_nodup (h : s.Invariant p kept) : s.basis.Nodup := by
  rw [List.nodup_iff_getElem?_ne_getElem?]
  intro i k hik hk e
  obtain ⟨hkm, hv⟩ := basis_getElem?_eq_some.mp (List.getElem?_eq_getElem hk)
  obtain ⟨him, hu⟩ := basis_getElem?_eq_some.mp (e.trans (List.getElem?_eq_getElem hk))
  exact hik.ne (h.solved.basic_injective him hkm (hu.trans hv.symm))

/-- The rows that are left, in their order. -/
theorem rows_kept (h : s.Invariant p kept) : kept.Sublist (List.range p.rowCount) := by
  have hnodup : kept.Nodup := h.sorted.imp fun hlt => hlt.ne
  have hsubset : kept ⊆ List.range p.rowCount := fun k hk => List.mem_range.mpr (h.inside k hk)
  exact List.sublist_of_subperm_of_sortedLE (List.subperm_of_subset hnodup hsubset)
    h.sorted.sortedLT.sortedLE (List.sortedLT_range _).sortedLE

theorem balanced (h : s.Invariant p kept) {q : Nat} (hq : q < s.rowCount) :
    ∑ j ∈ range p.variableCount, coord (s.column j) q * s.value j +
      s.value (p.variableCount + kept.getD q 0) = p.rhs (kept.getD q 0) := by
  rw [← h.solved.balanced hq, h.variableCount]
  congr 1
  cases hp : s.phase with
  | one =>
    rw [h.rowCount, h.full hp, List.length_range] at hq
    rw [h.full hp]
    simp [hq]
  | two =>
    have hclear := h.clear hp
    rw [hclear _ (by rw [h.variableCount]; omega), hclear _ (by rw [h.variableCount]; omega)]

theorem consistent (h : s.Invariant p kept) : s.Consistent p kept where
  columns := h.columns
  rowCount := h.rowCount
  rows_kept := h.rows_kept
  rows_full := h.full
  inverse_square := h.solved.shaped.inverses
  inverse := h.inverse_mul_basis
  basis_nodup := h.basis_nodup
  marked j hj := by rw [h.solved.marked j (h.variableCount ▸ hj), mem_basis]
  own_row i v hv hn := by
    obtain ⟨hi, rfl⟩ := basis_getElem?_eq_some.mp hv
    rw [← h.variableCount] at hn ⊢
    exact h.solved.own i hi hn
  structural hp v hv := by
    obtain ⟨i, hi, rfl⟩ := mem_basis.mp hv
    exact h.variableCount ▸ h.basics hp i hi
  nonbasic v hv := h.solved.other_value v fun i hi e => hv (mem_basis.mpr ⟨i, hi, e⟩)
  nonneg := nonneg_of_coord fun v _ => h.nonneg v
  balanced q hq := h.balanced hq
  cost_one hp i hi := by
    rw [h.priced i hi, h.variableCount, phaseCost, hp]
  cost_two hp i hi := by
    rw [h.priced i hi, if_pos (h.basics hp i hi), phaseCost, hp, h.costs]

end Invariant

/-! ## Artificial variables -/

/-- A turn brings no artificial variable into the basis. -/
theorem Turned.artificials {events : List Event} (h : s.Invariant p kept)
    (m : s.Turned (fun q => p.rhs (kept.getD q 0)) (.moved t events)) :
    ∀ v ∈ t.basis, p.variableCount ≤ v → v ∈ s.basis := by
  intro v hv hn
  obtain ⟨i, hi, rfl⟩ := mem_basis.mp hv
  cases m with
  | reduced hp _ _ r =>
    have hlt := (h.reduction hp r).variableCount ▸ r.basics i hi
    omega
  | pivoted hj _ _ e =>
    rw [e.rowCount] at hi
    rw [e.basic i hi] at hn ⊢
    split at hn
    · have hlt := h.variableCount ▸ hj.lt
      omega
    · next hne =>
      rw [if_neg hne]
      exact mem_basis.mpr ⟨i, hi, rfl⟩

/-- An artificial variable that has left the basis does not come back. -/
theorem Reaches.artificials {n : Nat} (r : Reaches n s t) (h : s.Invariant p kept) :
    ∀ v ∈ t.basis, p.variableCount ≤ v → v ∈ s.basis := by
  induction n generalizing s kept with
  | zero =>
    obtain rfl := reaches_zero.mp r
    exact fun v hv _ => hv
  | succ n ih =>
    obtain ⟨u, events, ha, hu⟩ := reaches_succ.mp r
    have m := h.turned ha
    obtain ⟨rest, hrest⟩ := m.invariant h
    exact fun v hv hn => m.artificials h v (ih hu hrest v hv hn) hn

end State

/-! ## Runs -/

open State

/-- On a canonical program no turn goes wrong, the state is consistent before each, and artificial
variables only leave the basis. -/
theorem runs_consistent {p : Program Rat} (hs : p.Stored) (hc : p.isCanonical = true) :
    ∃ s, State.start p = .ok s ∧ (∀ limit, ∃ r, s.run limit = .ok r) ∧
      ∀ n t, Reaches n s t → (∃ kept, t.Consistent p kept) ∧
        ∀ k u, Reaches k t u → ∀ v ∈ u.basis, p.variableCount ≤ v → v ∈ t.basis := by
  have hinitial := initial_invariant (lower_nonneg hc)
  refine ⟨initial p, start_eq hs, fun limit => ?_, fun n t ht => ?_⟩
  · obtain ⟨r, hr, -⟩ := run_ok hinitial limit
    exact ⟨r, hr⟩
  · obtain ⟨kept, ht⟩ := ht.exists_invariant hinitial
    exact ⟨⟨kept, ht.consistent⟩, fun k u hu => hu.artificials ht⟩

/-- After one exchange one of the two rows is dropped; the first variable is basic in the other. -/
theorem stutter_consistent : stutter.Stored ∧ stutter.isCanonical = true ∧
    ∃ s t kept, State.start stutter = .ok s ∧ Reaches 2 s t ∧ t.phase = .two ∧ t.basis = [0] ∧
      t.Consistent stutter kept := by
  have hs : stutter.Stored := by decide
  have hc : stutter.isCanonical = true := by decide
  have hrun : (initial stutter).basisAfter 2 = some (.two, [0]) := by decide +kernel
  obtain ⟨t, ht, hend⟩ := Option.map_eq_some_iff.mp hrun
  have ht := reaches_iff_stateAfter.mpr ht
  obtain ⟨hphase, hbasis⟩ := Prod.mk.inj hend
  obtain ⟨s, hstart, -, hreach⟩ := runs_consistent hs hc
  obtain rfl := Except.ok.inj ((start_eq hs).symm.trans hstart)
  obtain ⟨kept, hkept⟩ := (hreach 2 t ht).1
  exact ⟨hs, hc, _, t, kept, hstart, ht, hphase, hbasis, hkept⟩

end LinearProgramming.Simplex
