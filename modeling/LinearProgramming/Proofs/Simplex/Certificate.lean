import LinearProgramming.Proofs.Simplex.Basis

/-!
# Certificates of a basis

What a solved state proves about the points that meet its rows (`Meets`):

* `Solved.meets`: its own values do, when all artificial variables are zero;
* `Solved.basisCost_le`: without a negative reduced cost, none of them costs less than the basis;
* `Solved.ray_meets`, `Solved.ray_cost`: along a direction without a positive entry they get cheaper
  without end.
-/

namespace LinearProgramming.Simplex.State

open Finset

/-- The point is nonnegative, and the columns of the state taken with it add up to `b`. -/
structure Meets (s : State Rat) (b x : Nat → Rat) : Prop where
  nonneg : ∀ j < s.variableCount, 0 ≤ x j
  rows : ∀ k < s.rowCount, ∑ j ∈ range s.variableCount, coord (s.column j) k * x j = b k

/-- What a point costs in the current phase. -/
def phaseObjective (s : State Rat) (x : Nat → Rat) : Rat :=
  ∑ j ∈ range s.variableCount, s.phaseCost j * x j

/-- What the basis costs at the current values. -/
def basisCost (s : State Rat) : Rat :=
  ∑ i ∈ range s.rowCount, (s.row i).cost * s.value (s.row i).basic

/-- Every basic variable has its cost of the current phase; that of an artificial one is 1. -/
def Priced (s : State Rat) : Prop :=
  ∀ i < s.rowCount, (s.row i).cost =
    if (s.row i).basic < s.variableCount then s.phaseCost (s.row i).basic else 1

/-! ## Prices -/

/-- The price of a right-hand side is the cost of the basic variables that it is expressed by. -/
theorem price_mul (s : State Rat) (x : Nat → Rat) :
    ∑ k ∈ range s.rowCount, s.price k * x k =
      ∑ i ∈ range s.rowCount, (s.row i).cost * s.express x i := by
  simp only [price, express, Finset.sum_mul, Finset.mul_sum]
  rw [Finset.sum_comm]
  exact sum_range_congr fun i _ => Finset.sum_congr rfl fun k _ => by ring

theorem reduced_eq (s : State Rat) (j : Nat) : s.reduced j =
    s.phaseCost j - ∑ i ∈ range s.rowCount, (s.row i).cost * s.express (coord (s.column j)) i := by
  rw [reduced, price_mul]

/-- A point that meets the rows costs as much as their prices and its reduced costs. -/
theorem phaseObjective_eq {s : State Rat} {b x : Nat → Rat}
    (hx : ∀ k < s.rowCount, ∑ j ∈ range s.variableCount, coord (s.column j) k * x j = b k) :
    s.phaseObjective x = ∑ k ∈ range s.rowCount, s.price k * b k +
      ∑ j ∈ range s.variableCount, s.reduced j * x j := by
  have hb : ∑ k ∈ range s.rowCount, s.price k * b k = ∑ j ∈ range s.variableCount,
      (∑ k ∈ range s.rowCount, s.price k * coord (s.column j) k) * x j := by
    simp only [Finset.sum_mul]
    rw [Finset.sum_comm]
    apply sum_range_congr
    intro k hk
    rw [← hx k hk, Finset.mul_sum]
    exact sum_range_congr fun j _ => by ring
  rw [hb, ← Finset.sum_add_distrib]
  apply sum_range_congr
  intro j _
  rw [reduced]
  ring

namespace Solved

variable {s : State Rat} {b : Nat → Rat}

/-- What vanishes out of the basis is found in the row of its variable. -/
theorem eq_sum_basic (h : s.Solved b) {f : Nat → Rat} {v : Nat}
    (hf : (∀ i < s.rowCount, (s.row i).basic ≠ v) → f v = 0) :
    f v = ∑ i ∈ range s.rowCount, if (s.row i).basic = v then f v else 0 := by
  by_cases hv : ∃ i < s.rowCount, (s.row i).basic = v
  · obtain ⟨i, hi, rfl⟩ := hv
    exact (h.sum_basic (fun _ => f (s.row i).basic) hi).symm
  · rw [hf fun i hi hb => hv ⟨i, hi, hb⟩]
    simp

/-- What is zero out of the basis adds up over the basis. -/
theorem sum_variables (h : s.Solved b) {f : Nat → Rat}
    (hf : ∀ v, (∀ i < s.rowCount, (s.row i).basic ≠ v) → f v = 0) :
    ∑ v ∈ range s.variableCount, f v = ∑ i ∈ range s.rowCount,
      if (s.row i).basic < s.variableCount then f (s.row i).basic else 0 := by
  rw [Finset.sum_congr rfl fun v _ => h.eq_sum_basic (hf v), Finset.sum_comm]
  apply sum_range_congr
  intro i _
  rw [Finset.sum_ite_eq]
  simp only [Finset.mem_range]

theorem not_basic (h : s.Solved b) {j : Nat} (hj : j < s.variableCount)
    (hm : s.marked j = false) {i : Nat} (hi : i < s.rowCount) : (s.row i).basic ≠ j := by
  intro e
  have := (h.marked j hj).mpr ⟨i, hi, e⟩
  rw [hm] at this
  exact Bool.false_ne_true this

theorem reduced_basic (h : s.Solved b) (hp : s.Priced) {j : Nat} (hj : j < s.variableCount)
    (hm : s.marked j = true) : s.reduced j = 0 := by
  obtain ⟨i, hi, rfl⟩ := (h.marked j hj).mp hm
  rw [reduced_eq, ← fullColumn_of_lt hj, Finset.sum_eq_single_of_mem i (Finset.mem_range.mpr hi),
    h.inverse i hi i hi, if_pos rfl, hp i hi, if_pos hj, mul_one, sub_self]
  intro r hr hne
  simp [h.inverse r (Finset.mem_range.mp hr) i hi, hne]

theorem price_rhs (h : s.Solved b) :
    ∑ k ∈ range s.rowCount, s.price k * b k = s.basisCost := by
  rw [price_mul, basisCost]
  exact sum_range_congr fun i hi => by rw [h.basic_value i hi]

/-! ## The point of the basis -/

/-- With all artificial variables at zero, the values meet the rows. -/
theorem meets (h : s.Solved b) (hv : ∀ v, 0 ≤ s.value v)
    (ha : ∀ v, s.variableCount ≤ v → s.value v = 0) : s.Meets b s.value := by
  refine ⟨fun j _ => hv j, ?_⟩
  intro k hk
  rw [h.sum_variables fun v ho => by rw [h.other_value v ho, mul_zero], ← h.rows_hold hk]
  apply sum_range_congr
  intro i hi
  split
  · next hb => rw [fullColumn_of_lt hb]
  · next hb => rw [ha _ (by omega), mul_zero]

theorem basisCost_eq (h : s.Solved b) (hp : s.Priced)
    (ha : ∀ v, s.variableCount ≤ v → s.value v = 0) : s.basisCost = s.phaseObjective s.value := by
  rw [phaseObjective, h.sum_variables fun v ho => by rw [h.other_value v ho, mul_zero]]
  apply sum_range_congr
  intro i hi
  rw [hp i hi]
  split
  · rfl
  · next hb => rw [ha _ (by omega), mul_zero]

/-! ## No cheaper point -/

/-- Without a negative reduced cost no point that meets the rows costs less than the basis. -/
theorem basisCost_le (h : s.Solved b) (hp : s.Priced)
    (hr : ∀ j < s.variableCount, s.marked j = false → 0 ≤ s.reduced j) {x : Nat → Rat}
    (hx : s.Meets b x) : s.basisCost ≤ s.phaseObjective x := by
  rw [phaseObjective_eq hx.rows, h.price_rhs]
  refine le_add_of_nonneg_right (Finset.sum_nonneg fun j hj => ?_)
  have hj := Finset.mem_range.mp hj
  refine mul_nonneg ?_ (hx.nonneg j hj)
  cases hm : s.marked j
  · exact hr j hj hm
  · exact (h.reduced_basic hp hj hm).ge

/-- No point costs anything in phase one, so none meets the rows if the basis has a cost there and
no reduced cost is negative. -/
theorem not_meets (h : s.Solved b) (hp : s.Priced) (hs : s.phase = .one)
    (hr : ∀ j < s.variableCount, s.marked j = false → 0 ≤ s.reduced j) (hc : 0 < s.basisCost)
    (x : Nat → Rat) : ¬ s.Meets b x := by
  intro hx
  have hle := h.basisCost_le hp hr hx
  have hzero : s.phaseObjective x = 0 := by
    apply Finset.sum_eq_zero
    intro j _
    simp [phaseCost, hs]
  linarith

/-! ## Rays -/

end Solved

/-- The point that is reached when variable `j` grows by `step` along its direction. -/
def along (s : State Rat) (j : Nat) (d : List Rat) (step : Rat) (v : Nat) : Rat :=
  s.value v + step * ((if v = j then 1 else 0) -
    ∑ r ∈ range s.rowCount, if (s.row r).basic = v then coord d r else 0)

namespace Solved

variable {s : State Rat} {b : Nat → Rat}

/-- What a weighting of the variables gains along a direction, if all basic variables belong to the
program. -/
theorem sum_along (h : s.Solved b) (hb : ∀ i < s.rowCount, (s.row i).basic < s.variableCount)
    {j : Nat} (hj : j < s.variableCount) (d : List Rat) (step : Rat) (f : Nat → Rat) :
    ∑ v ∈ range s.variableCount, f v * s.along j d step v =
      ∑ v ∈ range s.variableCount, f v * s.value v +
        step * (f j - ∑ r ∈ range s.rowCount, f (s.row r).basic * coord d r) := by
  have hentering : ∑ v ∈ range s.variableCount, f v * (if v = j then 1 else 0) = f j := by
    simp [hj]
  have hbasic : ∑ v ∈ range s.variableCount,
      f v * ∑ r ∈ range s.rowCount, (if (s.row r).basic = v then coord d r else 0) =
        ∑ r ∈ range s.rowCount, f (s.row r).basic * coord d r := by
    rw [h.sum_variables fun v ho => ?_]
    · apply sum_range_congr
      intro r hr
      simp [hb r hr, h.sum_basic _ hr]
    · simp [Finset.sum_eq_zero fun r hr => if_neg (ho r (Finset.mem_range.mp hr))]
  rw [← hentering, ← hbasic, ← Finset.sum_sub_distrib, Finset.mul_sum, ← Finset.sum_add_distrib]
  apply sum_range_congr
  intro v _
  rw [along]
  ring

/-- Along a direction without a positive entry every point meets the rows. -/
theorem ray_meets (h : s.Solved b) (hb : ∀ i < s.rowCount, (s.row i).basic < s.variableCount)
    (hv : ∀ v, 0 ≤ s.value v) {j : Nat} (hj : j < s.variableCount) {d : List Rat}
    (hdir : ∀ r < s.rowCount, coord d r = s.express (coord (s.column j)) r)
    (hd : ∀ r < s.rowCount, coord d r ≤ 0) {step : Rat} (hs : 0 ≤ step) :
    s.Meets b (s.along j d step) := by
  constructor
  · intro v _
    have hentering : (0 : Rat) ≤ if v = j then 1 else 0 := by split <;> norm_num
    have hbasic : ∑ r ∈ range s.rowCount, (if (s.row r).basic = v then coord d r else 0) ≤ 0 := by
      apply Finset.sum_nonpos
      intro r hr
      split
      · exact hd r (Finset.mem_range.mp hr)
      · rfl
    exact add_nonneg (hv v) (mul_nonneg hs (by linarith))
  · intro k hk
    have hzero : coord (s.column j) k = ∑ r ∈ range s.rowCount,
        coord (s.column (s.row r).basic) k * coord d r := by
      rw [← h.expand (coord (s.column j)) hk]
      apply sum_range_congr
      intro r hr
      rw [fullColumn_of_lt (hb r hr), hdir r hr]
    have ha : ∀ v, s.variableCount ≤ v → s.value v = 0 := fun v hv =>
      h.other_value v fun i hi e => absurd (hb i hi) (by omega)
    rw [h.sum_along hb hj, ← hzero, sub_self, mul_zero, add_zero]
    exact (h.meets hv ha).rows k hk

/-- Along the direction of a variable the cost changes by its reduced cost. -/
theorem ray_cost (h : s.Solved b) (hp : s.Priced)
    (hb : ∀ i < s.rowCount, (s.row i).basic < s.variableCount) {j : Nat} (hj : j < s.variableCount)
    {d : List Rat} (hdir : ∀ r < s.rowCount, coord d r = s.express (coord (s.column j)) r)
    (step : Rat) :
    s.phaseObjective (s.along j d step) = s.phaseObjective s.value + step * s.reduced j := by
  rw [phaseObjective, h.sum_along hb hj, reduced_eq]
  congr 3
  apply sum_range_congr
  intro r hr
  simp [hp r hr, hb r hr, hdir r hr]

end Solved

/-! ## Exchanges -/

theorem Leaves.ratio_nonneg {s : State Rat} {d : List Rat} {i : Nat} (h : s.Leaves d i)
    (hv : ∀ v, 0 ≤ s.value v) : 0 ≤ s.ratio d i :=
  div_nonneg (hv _) h.2.1.le

namespace Exchange

variable {s t : State Rat} {i j : Nat} {d : List Rat} {b : Nat → Rat}

theorem phaseCost_eq (e : Exchange s t i j d) (v : Nat) : t.phaseCost v = s.phaseCost v := by
  simp only [phaseCost, e.phase, e.costs]

theorem priced (e : Exchange s t i j d) (hp : s.Priced) (hj : j < s.variableCount) : t.Priced := by
  intro r hr
  rw [e.rowCount] at hr
  rw [e.cost r hr, e.basic r hr, e.variableCount_eq, e.phaseCost_eq]
  by_cases hri : r = i
  · simp only [hri, if_true, if_pos hj]
  · simp only [hri, if_false]
    exact hp r hr

/-- An exchange by the ratio test keeps all values nonnegative. -/
theorem nonneg (e : Exchange s t i j d) (h : s.Solved b) (hj : j < s.variableCount)
    (hu : s.marked j = false) (hl : s.Leaves d i) (hv : ∀ v, 0 ≤ s.value v) (v : Nat) :
    0 ≤ t.value v := by
  have hstep := hl.ratio_nonneg hv
  obtain ⟨hi, hpos, least⟩ := hl
  by_cases hvj : v = j
  · rw [e.value, if_pos hvj]
    exact hstep
  · by_cases hb : ∃ r < s.rowCount, (s.row r).basic = v
    · obtain ⟨r, hr, rfl⟩ := hb
      rw [e.value_basic h hu hj hr]
      rcases le_or_gt (coord d r) 0 with hd | hd
      · linarith [hv (s.row r).basic, mul_nonpos_of_nonneg_of_nonpos hstep hd]
      · have := (least r hr hd).1
        rw [State.ratio.eq_def s d r, le_div_iff₀ hd] at this
        linarith
    · rw [e.value_other hvj fun r hr hbr => hb ⟨r, hr, hbr⟩]
      exact hv v

/-- Where the leaving variable is zero an exchange changes no value. -/
theorem value_eq (e : Exchange s t i j d) (h : s.Solved b) (hj : j < s.variableCount)
    (hu : s.marked j = false) (hz : s.value (s.row i).basic = 0) (v : Nat) :
    t.value v = s.value v := by
  have hstep : s.ratio d i = 0 := by rw [ratio, hz, zero_div]
  rw [e.value, hstep]
  split
  · next hvj =>
    rw [hvj, h.other_value j fun r hr => h.not_basic hj hu hr]
  · simp

end Exchange

end LinearProgramming.Simplex.State
