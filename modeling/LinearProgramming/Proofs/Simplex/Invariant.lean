import LinearProgramming.Proofs.Points
import LinearProgramming.Proofs.Simplex.Turn

/-!
# The invariant of the engine

* `Invariant`: the state is solved for a basis of some rows of the program, with nonnegative values,
  and the rows that were dropped follow from these;
* `start_eq`: the first state has the invariant, with all rows;
* `Turned.invariant`: every turn keeps it.
-/

namespace LinearProgramming.Simplex

open Finset

namespace State

/-- The state belongs to a program of which the rows at the positions `kept` are left. -/
structure Invariant (p : Program Rat) (kept : List Nat) (s : State Rat) : Prop where
  columns : s.columns = p.columns.map fun c => kept.map c.coefficient
  costs : s.costs = p.costs
  rowCount : s.rowCount = kept.length
  solved : s.Solved fun q => p.rhs (kept.getD q 0)
  priced : s.Priced
  nonneg : ∀ v, 0 ≤ s.value v
  sorted : kept.Pairwise (· < ·)
  inside : ∀ k ∈ kept, k < p.rowCount
  complete : ∀ x : Nat → Rat, (∀ k ∈ kept, p.leftSide x k = p.rhs k) →
    ∀ k < p.rowCount, p.leftSide x k = p.rhs k
  full : s.phase = .one → kept = List.range p.rowCount
  basics : s.phase = .two → ∀ i < s.rowCount, (s.row i).basic < s.variableCount

namespace Invariant

variable {p : Program Rat} {kept : List Nat} {s : State Rat}

theorem variableCount (h : s.Invariant p kept) : s.variableCount = p.variableCount := by
  simp [State.variableCount, h.columns, Program.variableCount]

/-- A row of the state is the row of the program at its position. -/
theorem sum_row (h : s.Invariant p kept) (x : Nat → Rat) {q : Nat} (hq : q < kept.length) :
    ∑ j ∈ range s.variableCount, coord (s.column j) q * x j =
      p.leftSide x (kept.getD q 0) := by
  rw [Program.leftSide, weigh, List.length_map, h.variableCount]
  apply sum_range_congr
  intro j hj
  have hj : j < p.columns.length := hj
  rw [coord_map _ _ hj, column, h.columns]
  simp [coord, hj, hq]

theorem meets_iff (h : s.Invariant p kept) (x : Nat → Rat) :
    s.Meets (fun q => p.rhs (kept.getD q 0)) x ↔
      (∀ j < p.variableCount, 0 ≤ x j) ∧ ∀ r < p.rowCount, p.leftSide x r = p.rhs r := by
  constructor
  · refine fun hx => ⟨fun j hj => hx.nonneg j (h.variableCount ▸ hj), h.complete x fun k hk => ?_⟩
    obtain ⟨q, hq, rfl⟩ := List.getElem_of_mem hk
    have hrow := hx.rows q (h.rowCount ▸ hq)
    rw [h.sum_row x hq] at hrow
    simpa [hq] using hrow
  · rintro ⟨hv, hr⟩
    refine ⟨fun j hj => hv j (h.variableCount ▸ hj), ?_⟩
    intro q hq
    rw [h.rowCount] at hq
    rw [h.sum_row x hq]
    exact hr _ (h.inside _ (getD_mem hq 0))

theorem meets_of_solves (h : s.Invariant p kept) {x : List Rat} (hx : p.Solves x) :
    s.Meets (fun q => p.rhs (kept.getD q 0)) (coord x) :=
  (h.meets_iff _).mpr (Program.solves_iff.mp hx).2

/-- The list of the values of a point. -/
theorem solves_of_meets (h : s.Invariant p kept) {x : Nat → Rat}
    (hx : s.Meets (fun q => p.rhs (kept.getD q 0)) x) {xs : List Rat}
    (hl : xs.length = p.variableCount) (hc : ∀ j < p.variableCount, coord xs j = x j) :
    p.Solves xs := by
  obtain ⟨hv, hr⟩ := (h.meets_iff x).mp hx
  refine Program.solves_iff.mpr ⟨hl, fun j hj => (hc j hj).symm ▸ hv j hj, ?_⟩
  intro r hlt
  rw [← hr r hlt]
  exact weigh_congr fun j hj => hc j (by rwa [List.length_map] at hj)

theorem phaseObjective_eq (h : s.Invariant p kept) (hp : s.phase = .two) {x : Nat → Rat}
    {xs : List Rat} (hl : xs.length = p.variableCount)
    (hc : ∀ j < p.variableCount, coord xs j = x j) : s.phaseObjective x = p.objective xs := by
  rw [p.objective_eq hl, weigh, phaseObjective, h.variableCount, Program.costs, List.length_map,
    ← Program.costs]
  apply sum_range_congr
  intro j hj
  simp only [phaseCost, hp, hc j hj, h.costs]

theorem rowCount_le (h : s.Invariant p kept) : s.rowCount ≤ p.rowCount := by
  have hn : kept.Nodup := h.sorted.imp fun hlt => hlt.ne
  have hsub : kept.toFinset ⊆ Finset.range p.rowCount := fun k hk =>
    Finset.mem_range.mpr (h.inside k (List.mem_toFinset.mp hk))
  have hcard := Finset.card_le_card hsub
  rwa [List.toFinset_card_of_nodup hn, Finset.card_range, ← h.rowCount] at hcard

/-- In phase two no artificial variable is left in the basis. -/
theorem clear (h : s.Invariant p kept) (hp : s.phase = .two) : s.Clear := fun v hv =>
  h.solved.other_value v fun i hi e => absurd (h.basics hp i hi) (by omega)

end Invariant

/-! ## The first state -/

/-- The state in which every row is solved by its artificial variable. -/
def initial (p : Program Rat) : State Rat where
  columns := p.columns.map fun c => (List.range p.rowCount).map c.coefficient
  costs := p.costs
  rows := (List.range p.rowCount).map fun i =>
    ⟨p.variableCount + i, 1, (List.range p.rowCount).map fun k => if i = k then 1 else 0⟩
  inBasis := List.replicate p.variableCount false ++ List.replicate p.rowCount true
  values := List.replicate p.variableCount 0 ++ p.rows.map (·.lower)
  phase := .one
  pivots := 0

theorem start_eq {p : Program Rat} (hs : p.Stored) : State.start p = .ok (initial p) := by
  have hcolumns : p.columns.mapM (fun c => dense p.rowCount c.entries) =
      .ok (p.columns.map fun c => (List.range p.rowCount).map c.coefficient) := by
    apply mapM_eq_ok
    intro c hc
    rw [dense, if_pos]
    · rfl
    · exact List.all_eq_true.mpr fun e he => decide_eq_true ((hs c hc).2 e he)
  unfold State.start
  dsimp only
  rw [bind_eq hcolumns]
  rfl

section Initial

variable (p : Program Rat)

@[simp]
theorem initial_rowCount : (initial p).rowCount = p.rowCount := by
  simp [initial, State.rowCount]

@[simp]
theorem initial_variableCount : (initial p).variableCount = p.variableCount := by
  simp [initial, State.variableCount, Program.variableCount]

theorem initial_row {i : Nat} (hi : i < p.rowCount) : (initial p).row i =
    ⟨p.variableCount + i, 1, (List.range p.rowCount).map fun k => if i = k then 1 else 0⟩ := by
  simp [initial, State.row, hi]

theorem initial_basic {i : Nat} (hi : i < p.rowCount) :
    ((initial p).row i).basic = p.variableCount + i := by
  rw [initial_row p hi]

theorem initial_value (v : Nat) : (initial p).value v =
    if v < p.variableCount then 0 else p.rhs (v - p.variableCount) := by
  rw [State.value, initial, coord_append, List.length_replicate]
  split
  · next hv => simp [coord, hv]
  · rfl

theorem initial_diagonal : (initial p).Diagonal := by
  intro i hi k hk
  rw [initial_rowCount] at hi hk
  simp [initial_row p hi, coord, hk]

theorem initial_express (x : Nat → Rat) {i : Nat} (hi : i < p.rowCount) :
    (initial p).express x i = x i :=
  (initial_diagonal p).express x (by rwa [initial_rowCount])

theorem initial_marked {j : Nat} (hj : j < p.variableCount) : (initial p).marked j = false := by
  have hl : j < (List.replicate p.variableCount false).length := by rwa [List.length_replicate]
  rw [State.marked, initial, List.getD_append _ _ _ _ hl, List.getD_eq_getElem _ _ hl]
  exact List.getElem_replicate hl

@[simp]
theorem initial_values_length : (initial p).values.length = p.variableCount + p.rowCount := by
  simp [initial, Program.rowCount]

theorem initial_shaped : (initial p).Shaped := by
  refine ⟨?_, ?_, ?_, ?_, ?_, ?_⟩
  · intro c hc
    obtain ⟨d, -, rfl⟩ := List.mem_map.mp hc
    simp
  · simp [initial, Program.costs, State.variableCount]
  · intro r hr
    obtain ⟨i, -, rfl⟩ := List.mem_map.mp hr
    simp
  · intro r hr
    obtain ⟨i, hi, rfl⟩ := List.mem_map.mp hr
    rw [initial_values_length]
    exact Nat.add_lt_add_left (List.mem_range.mp hi) _
  · rw [initial_values_length]
    simp [initial]
  · rw [initial_values_length, initial_variableCount]
    omega

theorem initial_solved : (initial p).Solved p.rhs := by
  refine ⟨initial_shaped p, ?_, ?_, ?_, ?_, ?_⟩
  · intro i hi r hr
    rw [initial_rowCount] at hi hr
    rw [initial_express p _ hi, initial_basic p hr, fullColumn, initial_variableCount,
      if_neg (by omega)]
    simp only [Nat.add_left_cancel_iff, eq_comm]
  · intro j hj
    rw [initial_variableCount] at hj
    rw [initial_marked p hj]
    constructor
    · exact fun h => absurd h Bool.false_ne_true
    · rintro ⟨i, hi, hb⟩
      rw [initial_basic p (initial_rowCount p ▸ hi)] at hb
      omega
  · intro i hi _
    rw [initial_basic p (initial_rowCount p ▸ hi), initial_variableCount]
  · intro i hi
    rw [initial_rowCount] at hi
    rw [initial_express p _ hi, initial_basic p hi, initial_value,
      if_neg (by omega), Nat.add_sub_cancel_left]
  · intro v hv
    rw [initial_value]
    split
    · rfl
    · next hvn =>
      refine coord_of_le ?_
      rw [List.length_map]
      by_contra hlt
      have hr : v - p.variableCount < p.rowCount := Nat.lt_of_not_le hlt
      refine hv (v - p.variableCount) (by rwa [initial_rowCount]) ?_
      rw [initial_basic p hr]
      omega

end Initial

theorem initial_invariant {p : Program Rat} (hb : ∀ b ∈ p.rows, 0 ≤ b.lower) :
    (initial p).Invariant p (List.range p.rowCount) where
  columns := rfl
  costs := rfl
  rowCount := by rw [initial_rowCount, List.length_range]
  solved := (initial_solved p).congr fun q hq => by
    rw [initial_rowCount] at hq
    simp [hq]
  priced i hi := by
    rw [initial_rowCount] at hi
    simp [initial_row p hi, initial_variableCount, Nat.not_lt.mpr (Nat.le_add_right _ _)]
  nonneg v := by
    rw [initial_value]
    split
    · rfl
    · refine coord_nonneg (fun x hx => ?_) _
      obtain ⟨b, hbm, rfl⟩ := List.mem_map.mp hx
      exact hb b hbm
  sorted := List.pairwise_lt_range
  inside k hk := List.mem_range.mp hk
  complete x hx k hk := hx k (List.mem_range.mpr hk)
  full _ := rfl
  basics hp := by cases hp

/-! ## Turns -/

namespace Invariant

variable {p : Program Rat} {kept : List Nat} {s t : State Rat}

/-- An exchange by the ratio test keeps the invariant, with the same rows. -/
theorem exchange (h : s.Invariant p kept) {i j : Nat} {d : List Rat} (hj : s.Enters j)
    (hd : s.Directs j d) (hl : s.Leaves d i) (e : Exchange s t i j d) : t.Invariant p kept where
  columns := e.columns.trans h.columns
  costs := e.costs.trans h.costs
  rowCount := e.rowCount.trans h.rowCount
  solved := e.solved h.solved hl.1 hj.lt hj.unmarked hl.2.1.ne' hd.entry
  priced := e.priced h.priced hj.lt
  nonneg := e.nonneg h.solved hj.lt hj.unmarked hl h.nonneg
  sorted := h.sorted
  inside := h.inside
  complete := h.complete
  full hp := h.full (e.phase ▸ hp)
  basics hp r hr := by
    rw [e.rowCount] at hr
    rw [e.basic r hr, e.variableCount_eq]
    split
    · exact hj.lt
    · exact h.basics (e.phase ▸ hp) r hr

/-- What phase two starts from belongs to the program too. -/
theorem reduction (h : s.Invariant p kept) (hp : s.phase = .one) {rest : List Nat}
    (r : s.Reduction (fun q => p.rhs (kept.getD q 0)) rest t) : t.Invariant p rest := by
  obtain rfl := h.full hp
  have hm : s.rowCount = p.rowCount := by rw [h.rowCount, List.length_range]
  have hat : ∀ k ∈ rest, (List.range p.rowCount).getD k 0 = k := fun k hk => by
    simp [hm ▸ r.inside k hk]
  have hrow : ∀ (x : Nat → Rat) (k : Nat), k < p.rowCount →
      ∑ j ∈ range s.variableCount, coord (s.column j) k * x j = p.leftSide x k := by
    intro x k hk
    rw [h.sum_row x (by rwa [List.length_range])]
    simp [hk]
  exact {
    columns := by
      rw [r.columns, h.columns, List.map_map]
      refine List.map_congr_left fun c _ => List.map_congr_left fun k hk => ?_
      have hk := hm ▸ r.inside k hk
      rw [coord_map _ _ (by rwa [List.length_range]), List.getElem_range]
    costs := r.costs.trans h.costs
    rowCount := r.rowCount
    solved := r.solved.congr fun q hq => by
      rw [r.rowCount] at hq
      rw [hat _ (getD_mem hq 0)]
    priced := r.priced
    nonneg := fun v => r.value v ▸ h.nonneg v
    sorted := r.sorted
    inside := fun k hk => hm ▸ r.inside k hk
    complete := fun x hx k hk => by
      have hall := r.complete x fun k hk => by
        have hlt := hm ▸ r.inside k hk
        simp only [hrow x k hlt, hx k hk, hat k hk]
      have := hall k (hm ▸ hk)
      rw [hrow x k hk] at this
      simpa [hk] using this
    full := fun hp => by rw [r.phase] at hp; cases hp
    basics := fun _ => r.basics }

/-- Whatever a turn of the engine comes to, it is what a turn may come to. -/
theorem turned (h : s.Invariant p kept) {turn : Turn Rat} (ha : s.advance = .ok turn) :
    s.Turned (fun q => p.rhs (kept.getD q 0)) turn := by
  obtain ⟨_, hturn, m⟩ := advance_ok h.solved h.nonneg
  obtain rfl := Except.ok.inj (hturn.symm.trans ha)
  exact m

end Invariant

/-- A turn that does not end the run keeps the invariant. -/
theorem Turned.invariant {p : Program Rat} {kept : List Nat} {s t : State Rat} {events : List Event}
    (h : s.Invariant p kept)
    (m : s.Turned (fun q => p.rhs (kept.getD q 0)) (.moved t events)) :
    ∃ rest, t.Invariant p rest := by
  cases m with
  | reduced hp _ _ r => exact ⟨_, h.reduction hp r⟩
  | pivoted hj hd hl e => exact ⟨kept, h.exchange hj hd hl e⟩

end State
end LinearProgramming.Simplex
