import LinearProgramming.Proofs.Canonical.Layout
import LinearProgramming.Proofs.Simplex.Cycle

/-!
# Programs of slacks alone

If every variable is the slack of some row, the engine never leaves the basis that it starts from,
up to the names of its variables: a slack takes the place of the artificial variable of its own row.

* `Diagonal.direction`, `Invariant.leaves_artificial`: in phase one only slacks with a positive sign
  enter, each for the artificial variable of its row, and the inverse stays the identity;
* `Diagonal.reaches_le`: so phase one ends after as many turns as there are artificials, and phase
  two at once;
* `solveCanonical_slacks`: the engine returns, and says whether the rows can hold.
-/

namespace LinearProgramming

open Finset

/-- Every variable is free of cost, and it is in a single row, up to its sign. -/
def Program.OnlySlacks (p : Program Rat) : Prop := ∀ c ∈ p.columns, c.cost = 0 ∧ c.SingleUnit

namespace Program.OnlySlacks

variable {p : Program Rat}

theorem cost (h : p.OnlySlacks) (j : Nat) : coord p.costs j = 0 := by
  by_cases hj : j < p.columns.length
  · rw [costs, coord_map _ _ hj]
    exact (h _ (List.getElem_mem hj)).1
  · exact coord_of_le (by simpa [costs] using hj)

theorem objective (h : p.OnlySlacks) {x : List Rat} (hx : x.length = p.variableCount) :
    p.objective x = 0 := by
  rw [p.objective_eq hx]
  exact Finset.sum_eq_zero fun j _ => by rw [h.cost, zero_mul]

end Program.OnlySlacks

namespace Simplex

namespace State

/-- The rows with an artificial variable. -/
def artificials (s : State Rat) : Finset Nat :=
  (range s.rowCount).filter fun i => s.variableCount ≤ (s.row i).basic

theorem initial_artificials_card (p : Program Rat) : (initial p).artificials.card ≤ p.rowCount := by
  refine (Finset.card_filter_le _ _).trans ?_
  rw [Finset.card_range, initial_rowCount]

section Slacks

variable {p : Program Rat} {kept : List Nat} {s t : State Rat} {i j n : Nat} {d : List Rat}

/-- In phase one the column of a variable is what it is in the program. -/
theorem Invariant.column_phase_one (h : s.Invariant p kept) (hone : s.phase = .one)
    {c : Column Rat} (hc : p.columns[j]? = some c) {k : Nat} (hk : k < s.rowCount) :
    coord (s.column j) k = c.coefficient k := by
  obtain rfl := h.full hone
  have hm : k < p.rowCount := by rwa [h.rowCount, List.length_range] at hk
  simp [column, h.columns, hc, coord, hm]

theorem Invariant.exists_unit (h : s.Invariant p kept) (hp : p.OnlySlacks) (hone : s.phase = .one)
    (hj : j < s.variableCount) : ∃ q a, (a = 1 ∨ a = -1) ∧
      ∀ r < s.rowCount, coord (s.column j) r = if r = q then a else 0 := by
  have hlt : j < p.columns.length := hj.trans_eq h.variableCount
  obtain ⟨-, q, a, he, ha⟩ := hp _ (List.getElem_mem hlt)
  refine ⟨q, a, ha, fun r hr => ?_⟩
  rw [h.column_phase_one hone (List.getElem?_eq_getElem hlt) hr, Column.coefficient, he,
    Entries.lookup_cons]
  split <;> rfl

/-- A slack that enters in phase one has a positive sign, and nothing but its own row changes. -/
theorem Diagonal.direction (hdiag : s.Diagonal) (hp : p.OnlySlacks) (h : s.Invariant p kept)
    (hone : s.phase = .one) (hj : s.Enters j) (hd : s.Directs j d) (hl : s.Leaves d i) :
    ∀ r < s.rowCount, coord d r = if r = i then 1 else 0 := by
  obtain ⟨q, a, ha, hcolumn⟩ := h.exists_unit hp hone hj.lt
  have hentry : ∀ r < s.rowCount, coord d r = if r = q then a else 0 := fun r hr => by
    rw [hd.entry r hr, hdiag.express _ hr, hcolumn r hr]
  have hpos := hl.2.1
  rw [hentry i hl.1] at hpos
  -- the row that leaves is the only one with an entry
  obtain rfl : i = q := by
    by_contra hne
    rw [if_neg hne] at hpos
    exact lt_irrefl 0 hpos
  obtain rfl : a = 1 := ha.resolve_right fun hneg => by
    rw [if_pos rfl, hneg] at hpos
    exact absurd hpos (by norm_num)
  exact hentry

/-- It enters for an artificial variable: another basic variable costs nothing, and there would be
nothing to gain. -/
theorem Invariant.leaves_artificial (h : s.Invariant p kept)
    (hone : s.phase = .one) (hj : s.Enters j) (hd : s.Directs j d) (hi : i < s.rowCount)
    (hunit : ∀ r < s.rowCount, coord d r = if r = i then 1 else 0) : i ∈ s.artificials := by
  have hreduced : s.reduced j = -(s.row i).cost := by
    rw [reduced_eq, phaseCost, hone, Finset.sum_eq_single_of_mem i (Finset.mem_range.mpr hi)]
    · rw [← hd.entry i hi, hunit i hi, if_pos rfl, mul_one, zero_sub]
    · intro r hr hne
      have hr := Finset.mem_range.mp hr
      rw [← hd.entry r hr, hunit r hr, if_neg hne, mul_zero]
  refine Finset.mem_filter.mpr ⟨Finset.mem_range.mpr hi, ?_⟩
  by_contra hbasic
  have hcost : (s.row i).cost = 0 := by
    rw [h.priced i hi, if_pos (Nat.lt_of_not_le hbasic), phaseCost, hone]
  have hneg := hj.negative
  rw [hreduced, hcost, neg_zero] at hneg
  exact lt_irrefl 0 hneg

/-- Such an exchange leaves the inverse as it is. -/
theorem Diagonal.exchange (hdiag : s.Diagonal) (e : Exchange s t i j d) (hi : i < s.rowCount)
    (hd : ∀ r < s.rowCount, coord d r = if r = i then 1 else 0) : t.Diagonal := by
  intro r hr k hk
  rw [e.rowCount] at hr hk
  rw [e.inverse r hr k hk, hd i hi, if_pos rfl, div_one, ← hdiag r hr k hk]
  split
  · next hri => rw [hri]
  · next hri => rw [hd r hr, if_neg hri, zero_mul, sub_zero]

/-- One artificial variable is gone after it. -/
theorem Exchange.artificials_card_lt (e : Exchange s t i j d) (hj : j < s.variableCount)
    (hi : i ∈ s.artificials) : t.artificials.card < s.artificials.card := by
  refine Finset.card_lt_card (Finset.ssubset_iff_of_subset ?_ |>.mpr ⟨i, hi, ?_⟩)
  · intro r hr
    obtain ⟨hr, hb⟩ := Finset.mem_filter.mp hr
    rw [e.rowCount] at hr
    rw [e.basic r (Finset.mem_range.mp hr), e.variableCount_eq] at hb
    refine Finset.mem_filter.mpr ⟨hr, ?_⟩
    split at hb
    · omega
    · exact hb
  · intro hmem
    obtain ⟨hr, hb⟩ := Finset.mem_filter.mp hmem
    rw [e.rowCount] at hr
    rw [e.basic i (Finset.mem_range.mp hr), if_pos rfl, e.variableCount_eq] at hb
    omega

/-- In phase two there is nothing to gain. -/
theorem Invariant.reduced_eq_zero (h : s.Invariant p kept) (hp : p.OnlySlacks)
    (htwo : s.phase = .two) (j : Nat) : s.reduced j = 0 := by
  have hcost : ∀ v, s.phaseCost v = 0 := fun v => by
    rw [phaseCost, htwo, h.costs]
    exact hp.cost v
  rw [reduced_eq, hcost, zero_sub, neg_eq_zero]
  refine Finset.sum_eq_zero fun i hi => ?_
  have hi := Finset.mem_range.mp hi
  rw [h.priced i hi, if_pos (h.basics htwo i hi), hcost, zero_mul]

theorem Reaches.eq_zero_of_phase_two (r : Reaches n s t) (h : s.Invariant p kept)
    (hp : p.OnlySlacks) (htwo : s.phase = .two) : n = 0 := by
  cases n with
  | zero => rfl
  | succ n =>
    obtain ⟨u, events, ha, -⟩ := reaches_succ.mp r
    cases h.turned ha with
    | reduced hone =>
      rw [hone] at htwo
      cases htwo
    | pivoted hj => exact absurd hj.negative (by rw [h.reduced_eq_zero hp htwo]; exact lt_irrefl 0)

/-- Every turn of phase one but the last one takes an artificial variable out of the basis. -/
theorem Diagonal.reaches_le (hdiag : s.Diagonal) (hp : p.OnlySlacks) (h : s.Invariant p kept)
    (hone : s.phase = .one) (r : Reaches n s t) : n ≤ s.artificials.card + 1 := by
  induction n generalizing s kept with
  | zero => exact Nat.zero_le _
  | succ n ih =>
    obtain ⟨u, events, ha, hu⟩ := reaches_succ.mp r
    cases h.turned ha with
    | reduced _ _ _ hred =>
      have hzero := hu.eq_zero_of_phase_two (h.reduction hone hred) hp hred.phase
      omega
    | pivoted hj hd hl e =>
      have hunit := hdiag.direction hp h hone hj hd hl
      have hi := h.leaves_artificial hone hj hd hl.1 hunit
      have hle := ih (hdiag.exchange e hl.1 hunit) (h.exchange hj hd hl e) (e.phase.trans hone) hu
      have hlt := e.artificials_card_lt hj.lt hi
      omega

end Slacks

end State

open State

/-- On a program of slacks the engine returns within two turns more than there are rows. It is an
optimum if the rows can hold. -/
theorem solveCanonical_slacks {p : Program Rat} (hs : p.Stored) (hc : p.isCanonical = true)
    (hp : p.OnlySlacks) {limit : Nat} (hl : p.rowCount + 2 ≤ limit) :
    ∃ o, solveCanonical limit p = .ok o ∧ ((o.status = .optimal ∧ ∃ x, p.Solves x) ∨
      (o.status = .infeasible ∧ ∀ x, ¬ p.Solves x)) := by
  rcases solveCanonical_ok hs hc limit with hcut | ⟨o, ho, hv⟩
  · obtain ⟨t, ht⟩ := (stepLimit_iff hs limit).mp hcut
    have hle := (initial_diagonal p).reaches_le hp (initial_invariant (lower_nonneg hc)) rfl ht
    have := initial_artificials_card p
    omega
  · refine ⟨o, ho, ?_⟩
    rcases hv with ⟨hst, hx, -⟩ | hv | ⟨-, hb⟩
    · exact .inl ⟨hst, _, hx⟩
    · exact .inr hv
    · obtain ⟨x, hx, hneg⟩ := hb 0
      rw [hp.objective hx.length] at hneg
      exact absurd hneg (lt_irrefl 0)

end Simplex
end LinearProgramming
