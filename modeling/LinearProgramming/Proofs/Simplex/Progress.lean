import LinearProgramming.Proofs.Simplex.Cycle

/-!
# Progress of the engine

An exchange changes the cost of the basis by the step of the entering variable times its reduced
cost. So the cost never rises within a phase, and stays only where no value changes:

* `Reaches.basisCost_le`, `Reaches.value_eq`: the cost and the values along a trace;
* `Reaches.stalls`: on the way back to a basis no value changes;
* `returns_of_nondegenerate`: the engine returns where basic variables are positive.
-/

namespace LinearProgramming.Simplex

open Finset

namespace State

/-! ## Exchanges -/

namespace Exchange

variable {s t : State Rat} {i j : Nat} {d : List Rat} {b : Nat → Rat}

/-- The cost of one row of the basis after an exchange. -/
theorem row_cost (e : Exchange s t i j d) (h : s.Solved b) (hj : s.Enters j) (hl : s.Leaves d i)
    {r : Nat} (hr : r < s.rowCount) : (t.row r).cost * t.value (t.row r).basic =
      (s.row r).cost * (s.value (s.row r).basic - s.ratio d i * coord d r) +
        if r = i then s.phaseCost j * s.ratio d i else 0 := by
  rw [e.cost r hr, e.basic r hr]
  split
  · next hri =>
    subst hri
    rw [e.value, if_pos rfl, ratio, div_mul_cancel₀ _ hl.2.1.ne']
    ring
  · rw [e.value_basic h hj.unmarked hj.lt hr, add_zero]

theorem basisCost_eq (e : Exchange s t i j d) (h : s.Solved b) (hj : s.Enters j)
    (hd : s.Directs j d) (hl : s.Leaves d i) :
    t.basisCost = s.basisCost + s.ratio d i * s.reduced j := by
  have hentering : ∑ r ∈ range s.rowCount, (if r = i then s.phaseCost j * s.ratio d i else 0) =
      s.phaseCost j * s.ratio d i := by
    simp [hl.1]
  have hold : ∑ r ∈ range s.rowCount,
      (s.row r).cost * (s.value (s.row r).basic - s.ratio d i * coord d r) =
        s.basisCost - s.ratio d i * ∑ r ∈ range s.rowCount, (s.row r).cost * coord d r := by
    rw [basisCost, Finset.mul_sum, ← Finset.sum_sub_distrib]
    exact sum_range_congr fun r _ => by ring
  have hreduced : s.reduced j =
      s.phaseCost j - ∑ r ∈ range s.rowCount, (s.row r).cost * coord d r := by
    rw [reduced_eq]
    congr 1
    exact sum_range_congr fun r hr => by rw [hd.entry r hr]
  rw [basisCost, e.rowCount, sum_range_congr fun r hr => e.row_cost h hj hl hr,
    Finset.sum_add_distrib, hentering, hold, hreduced]
  ring

theorem basisCost_le (e : Exchange s t i j d) (h : s.Solved b) (hj : s.Enters j)
    (hd : s.Directs j d) (hl : s.Leaves d i) (hv : ∀ v, 0 ≤ s.value v) :
    t.basisCost ≤ s.basisCost := by
  rw [e.basisCost_eq h hj hd hl]
  have := mul_nonpos_of_nonneg_of_nonpos (hl.ratio_nonneg hv) hj.negative.le
  linarith

/-- An exchange that saves nothing has a step of zero, and changes no value. -/
theorem value_eq_of_basisCost (e : Exchange s t i j d) (h : s.Solved b) (hj : s.Enters j)
    (hd : s.Directs j d) (hl : s.Leaves d i) (hc : t.basisCost = s.basisCost) (v : Nat) :
    t.value v = s.value v := by
  rw [e.basisCost_eq h hj hd hl, add_eq_left] at hc
  have hstep : s.ratio d i = 0 := (mul_eq_zero.mp hc).resolve_right hj.negative.ne
  have hzero : s.value (s.row i).basic = 0 := by
    rw [← div_mul_cancel₀ (s.value (s.row i).basic) hl.2.1.ne', ← ratio, hstep, zero_mul]
  exact e.value_eq h hj.lt hj.unmarked hzero v

end Exchange

/-! ## Traces -/

section Traces

variable {p : Program Rat} {kept : List Nat} {s t u : State Rat} {k n : Nat}

/-- Within a phase the basis never gets dearer. -/
theorem Reaches.basisCost_le (r : Reaches n s t) (h : s.Invariant p kept)
    (hp : t.phase = s.phase) : t.basisCost ≤ s.basisCost := by
  induction n generalizing s with
  | zero => exact (reaches_zero.mp r ▸ le_rfl)
  | succ n ih =>
    obtain ⟨w, i, j, d, hj, hd, hl, e, -, hw⟩ := r.exchange h hp
    have first := e.basisCost_le h.solved hj hd hl h.nonneg
    have rest := ih hw (h.exchange hj hd hl e) (hp.trans e.phase.symm)
    exact rest.trans first

theorem Reaches.value_eq (r : Reaches n s t) (h : s.Invariant p kept) (hp : t.phase = s.phase)
    (hc : s.basisCost ≤ t.basisCost) (v : Nat) : t.value v = s.value v := by
  induction n generalizing s with
  | zero => rw [reaches_zero.mp r]
  | succ n ih =>
    obtain ⟨w, i, j, d, hj, hd, hl, e, -, hw⟩ := r.exchange h hp
    have hinv := h.exchange hj hd hl e
    have hwp := hp.trans e.phase.symm
    have first := e.basisCost_le h.solved hj hd hl h.nonneg
    have rest := hw.basisCost_le hinv hwp
    rw [ih hw hinv hwp (first.trans hc)]
    exact e.value_eq_of_basisCost h.solved hj hd hl (le_antisymm first (hc.trans rest)) v

theorem Alike.basisCost_eq (h : Alike s t) (hs : s.Invariant p kept) (ht : t.Invariant p kept) :
    t.basisCost = s.basisCost := by
  rw [basisCost, basisCost, h.rowCount_eq]
  apply sum_range_congr
  intro i hi
  rw [h.cost_eq hs ht hi, h.value_eq hs ht hi]

/-- On the way back to a basis no value changes: all exchanges are degenerate. -/
theorem Reaches.stalls (r : Reaches k s u) (q : Reaches n u t) (h : s.Invariant p kept)
    (e : Alike s t) (v : Nat) : u.value v = s.value v := by
  have hu := r.phase_between q h e.phase.symm
  have hinv := r.invariant h hu
  have ht := (reaches_add.mpr ⟨u, r, q⟩).invariant h e.phase.symm
  apply r.value_eq h hu
  rw [← e.basisCost_eq h ht]
  exact q.basisCost_le hinv (e.phase.symm.trans hu.symm)

end Traces
end State

/-! ## Programs without degenerate bases -/

open State

/-- Wherever the engine comes, all basic variables are positive. -/
def Nondegenerate (p : Program Rat) : Prop :=
  ∀ n t, Reaches n (initial p) t → ∀ i < t.rowCount, 0 < t.value (t.row i).basic

theorem not_cycles_of_nondegenerate {p : Program Rat} (hs : p.Stored) (hc : p.isCanonical = true)
    (h : Nondegenerate p) : ¬ Cycles p := by
  rintro ⟨s, t, u, k, n, hstart, ht, hu, hn, halike⟩
  obtain rfl := Except.ok.inj ((start_eq hs).symm.trans hstart)
  obtain ⟨kept, hinv⟩ := ht.exists_invariant (initial_invariant (lower_nonneg hc))
  obtain ⟨n, rfl⟩ : ∃ m, n = m + 1 := ⟨n - 1, by omega⟩
  obtain ⟨w, i, j, d, hj, hd, hl, e, hfirst, hw⟩ := hu.exchange hinv halike.phase.symm
  -- the entering variable takes a positive value, though none changes
  have hzero : t.value j = 0 :=
    hinv.solved.other_value j fun r hr => hinv.solved.not_basic hj.lt hj.unmarked hr
  have hstep : w.value j = t.ratio d i := by rw [e.value, if_pos rfl]
  have hpos : 0 < t.ratio d i := div_pos (h k t ht i hl.1) hl.2.1
  rw [← hstep, hfirst.stalls hw hinv halike j, hzero] at hpos
  exact lt_irrefl 0 hpos

/-- The engine returns on every program on which it meets positive basic variables only. -/
theorem returns_of_nondegenerate {p : Program Rat} (hs : p.Stored) (hc : p.isCanonical = true)
    (h : Nondegenerate p) : ∃ o, solveCanonical (basisCount p) p = .ok o :=
  returns_of_not_cycles hs hc (not_cycles_of_nondegenerate hs hc h)

/-- One variable in one row. -/
def single : Program Rat where
  sense := .minimize
  columns := [⟨.nonnegative, 1, [(0, 1)]⟩]
  rows := [⟨1, 1⟩]

/-- All basic variables are positive after a number of turns, if the engine comes so far. -/
def State.positiveAfter (s : State Rat) (n : Nat) : Bool :=
  (s.stateAfter n).all fun t =>
    (List.range t.rowCount).all fun i => decide (0 < t.value (t.row i).basic)

theorem positive_of_positiveAfter {s t : State Rat} {n : Nat} (h : s.positiveAfter n = true)
    (r : Reaches n s t) {i : Nat} (hi : i < t.rowCount) : 0 < t.value (t.row i).basic := by
  rw [State.positiveAfter, reaches_iff_stateAfter.mp r] at h
  exact of_decide_eq_true (List.all_eq_true.mp h i (List.mem_range.mpr hi))

theorem single_nondegenerate : Nondegenerate single := by
  have hend : (initial single).stateAfter 3 = none := by decide +kernel
  intro n t ht i hi
  by_cases hn : n < 3
  · have hpositive : ∀ k < 3, (initial single).positiveAfter k = true := by decide +kernel
    exact positive_of_positiveAfter (hpositive n hn) ht hi
  · obtain ⟨u, hu, -⟩ := ht.until (Nat.le_of_not_lt hn)
    rw [reaches_iff_stateAfter, hend] at hu
    cases hu

theorem single_returns : single.Stored ∧ single.isCanonical = true ∧ Nondegenerate single ∧
    ∃ o, solveCanonical (basisCount single) single = .ok o :=
  have hs : single.Stored := by decide
  have hc : single.isCanonical = true := by decide
  ⟨hs, hc, single_nondegenerate, returns_of_nondegenerate hs hc single_nondegenerate⟩

end LinearProgramming.Simplex
