import LinearProgramming.Proofs.Simplex.Cleanup
import LinearProgramming.Proofs.Simplex.Selection

/-!
# The end of phase one

* `finishPhaseOne_ok`: there is no second phase only if the artificial variables have a positive
  sum, and otherwise its first state is a `Reduction` of the last one of phase one;
* `Reduction`: the rows that are left have the same solutions as all rows, and the state is solved
  for a basis without artificial variables.
-/

namespace LinearProgramming.Simplex

open Finset

namespace State

/-- `t` is a state of phase two that kept some rows of `s`, with the same values. -/
structure Reduction (s : State Rat) (b : Nat → Rat) (kept : List Nat) (t : State Rat) : Prop where
  phase : t.phase = .two
  costs : t.costs = s.costs
  columns : t.columns = s.columns.map fun c => kept.map (coord c)
  sorted : kept.Pairwise (· < ·)
  inside : ∀ k ∈ kept, k < s.rowCount
  rowCount : t.rowCount = kept.length
  solved : t.Solved fun q => b (kept.getD q 0)
  basics : ∀ i < t.rowCount, (t.row i).basic < t.variableCount
  priced : t.Priced
  value : ∀ v, t.value v = s.value v
  complete : ∀ x : Nat → Rat,
    (∀ k ∈ kept, ∑ j ∈ range s.variableCount, coord (s.column j) k * x j = b k) →
      ∀ k < s.rowCount, ∑ j ∈ range s.variableCount, coord (s.column j) k * x j = b k

/-! ## Rows that are dropped -/

/-- The kept rows have variables of the program. -/
theorem Cleanup.Fits.basics {s : State Rat} {c : Cleanup Rat} (h : c.Fits s s.rowCount) :
    ∀ r ∈ pick c.keep c.state.rows, r.basic < c.state.variableCount := by
  intro r hr
  obtain ⟨k, hk, hr⟩ := mem_pick.mp hr
  obtain ⟨hlt, rfl⟩ := List.getElem?_eq_some_iff.mp hr
  rw [← row_eq hlt]
  exact h.kept k hk

namespace Cleanup.Valid

variable {s : State Rat} {b : Nat → Rat} {c : Cleanup Rat}

theorem keep_of_lt (h : c.Valid s b s.rowCount) {k : Nat} (hk : k < s.rowCount) :
    k ∈ positions c.keep ∨ c.keep[k]? = some false := by
  have hl : k < c.keep.length := h.keep ▸ hk
  rw [mem_positions, List.getElem?_eq_getElem hl]
  cases c.keep[k]
  · exact .inr rfl
  · exact .inl rfl

theorem position_lt (h : c.Valid s b s.rowCount) {k : Nat} (hk : k ∈ positions c.keep) :
    k < c.state.rowCount := by
  obtain ⟨hl, -⟩ := List.getElem?_eq_some_iff.mp (mem_positions.mp hk)
  rw [h.rowCount]
  exact h.keep ▸ hl

/-- The column of the inverse at a dropped row has a single one, in that row. -/
theorem inverse_dropped (h : c.Valid s b s.rowCount) {i k : Nat} (hi : i < c.state.rowCount)
    (hk : k < c.state.rowCount) (hd : c.keep[k]? = some false) :
    coord (c.state.row i).inverse k = if i = k then 1 else 0 := by
  have hb := (h.dropped k hd).1
  have hown := h.solved.own k hk (h.variableCount ▸ hb)
  rw [← h.solved.inverse i hi k hk, express,
    Finset.sum_eq_single_of_mem k (Finset.mem_range.mpr hk)]
  · rw [fullColumn, hown, if_neg (by omega), if_pos rfl, mul_one]
  · intro q _ hq
    rw [fullColumn, hown, if_neg (by omega), if_neg (by omega), mul_zero]

/-- In a kept row, only kept rows count. -/
theorem express_kept (h : c.Valid s b s.rowCount) (x : Nat → Rat) {i : Nat}
    (hi : i ∈ positions c.keep) :
    ∑ q ∈ range (positions c.keep).length,
      coord (c.state.row i).inverse ((positions c.keep).getD q 0) *
        x ((positions c.keep).getD q 0) = c.state.express x i := by
  rw [sum_getD (f := fun k => coord (c.state.row i).inverse k * x k) (positions_nodup c.keep)
    (fun k hk => h.position_lt hk)]
  · rfl
  · intro k hk hnot
    have hd := (h.keep_of_lt (h.rowCount ▸ hk)).resolve_left hnot
    rw [h.inverse_dropped (h.position_lt hi) hk hd, if_neg, zero_mul]
    rintro rfl
    exact hnot hi

/-- A point that solves the kept rows solves the dropped ones: there, both sides are expressed by an
artificial variable, which is zero. -/
theorem complete (h : c.Valid s b s.rowCount) (hz : s.Clear) {x : Nat → Rat}
    (hx : ∀ k ∈ positions c.keep,
      ∑ j ∈ range s.variableCount, coord (s.column j) k * x j = b k) {k : Nat}
    (hk : k < s.rowCount) : ∑ j ∈ range s.variableCount, coord (s.column j) k * x j = b k := by
  rcases h.keep_of_lt hk with hpos | hdrop
  · exact hx k hpos
  have hk' : k < c.state.rowCount := h.rowCount ▸ hk
  obtain ⟨hb, hv⟩ := h.dropped k hdrop
  have hleft : c.state.express (fun r => ∑ j ∈ range s.variableCount, coord (s.column j) r * x j) k
      = 0 := by
    have hcomm : (fun r => ∑ j ∈ range s.variableCount, coord (s.column j) r * x j) =
        fun r => ∑ j ∈ range s.variableCount, x j * coord (s.column j) r := by
      funext r
      exact sum_range_congr fun j _ => mul_comm ..
    rw [hcomm, express_sum]
    apply Finset.sum_eq_zero
    intro j hj
    have hentry := hv j (h.variableCount ▸ Finset.mem_range.mp hj)
    rw [State.column, h.columns] at hentry
    simp only [express_mul, State.column, hentry, mul_zero]
  have hright : c.state.express b k = 0 := by
    simp only [← h.solved.basic_value k hk', h.value, hz _ hb]
  -- the two sides agree in the kept rows, and of the others only row `k` counts here
  have hdiff : c.state.express
      (fun r => ∑ j ∈ range s.variableCount, coord (s.column j) r * x j) k - c.state.express b k =
        ∑ j ∈ range s.variableCount, coord (s.column j) k * x j - b k := by
    rw [express, express, ← Finset.sum_sub_distrib,
      Finset.sum_eq_single_of_mem k (Finset.mem_range.mpr hk')]
    · simp [h.inverse_dropped hk' hk' hdrop]
    · intro r hr hrk
      have hr := Finset.mem_range.mp hr
      rcases h.keep_of_lt (h.rowCount ▸ hr) with hpos | hd
      · simp [hx r hpos]
      · simp [h.inverse_dropped hk' hr hd, Ne.symm hrk]
  rw [hleft, hright, sub_self] at hdiff
  exact (sub_eq_zero.mp hdiff.symm)

end Cleanup.Valid

/-! ## The state that is left -/

/-- The kept rows with the costs of their variables. -/
def restricted (s : State Rat) (keep : List Bool) : State Rat :=
  { s with
    columns := s.columns.map (pick keep)
    rows := (pick keep s.rows).map fun r => ⟨r.basic, coord s.costs r.basic, pick keep r.inverse⟩ }

theorem mem_rows_of_pick {s : State Rat} {keep : List Bool} {r : BasisRow Rat}
    (hr : r ∈ pick keep s.rows) : r ∈ s.rows := (pick_sublist keep s.rows).subset hr

/-- The kept rows, with the costs that they had. -/
def selected (s : State Rat) (keep : List Bool) : State Rat :=
  { s with
    columns := s.columns.map (pick keep)
    rows := (pick keep s.rows).map fun r => { r with inverse := pick keep r.inverse } }

theorem restrict_eq_ok {s : State Rat} (h : s.Shaped) {keep : List Bool}
    (hl : keep.length = s.rowCount) : s.restrict keep = .ok (s.selected keep) := by
  have hcolumns : s.columns.mapM (select keep) = .ok (s.columns.map (pick keep)) :=
    mapM_eq_ok fun c hc => select_eq_ok (hl.trans (h.columns c hc).symm)
  have hinverse : (pick keep s.rows).mapM (fun r => do
      return { r with inverse := ← select keep r.inverse }) =
        Except.ok (ε := Fault) ((pick keep s.rows).map fun r =>
          { r with inverse := pick keep r.inverse }) :=
    mapM_eq_ok fun r hr => by
      rw [bind_eq (select_eq_ok (hl.trans (h.inverses r (mem_rows_of_pick hr)).symm))]
      rfl
  unfold restrict
  rw [bind_eq hcolumns, bind_eq (select_eq_ok hl), bind_eq hinverse]
  rfl

theorem selected_basics {s : State Rat} (h : s.Shaped) {keep : List Bool}
    (hb : ∀ r ∈ pick keep s.rows, r.basic < s.variableCount) :
    ∀ r ∈ (s.selected keep).rows, r.basic < (s.selected keep).costs.length := by
  intro r hr
  obtain ⟨q, hq, rfl⟩ := List.mem_map.mp hr
  exact h.costs ▸ hb q hq

theorem restricted_eq_ok {s : State Rat} (h : s.Shaped) {keep : List Bool}
    (hl : keep.length = s.rowCount)
    (hb : ∀ r ∈ pick keep s.rows, r.basic < s.variableCount) :
    (s.restrict keep >>= fun t => t.loadCosts) = .ok (s.restricted keep) := by
  have hcosts : (s.selected keep).rows.mapM (fun r => do
      return { r with cost := ← fetch s.costs r.basic }) =
        Except.ok (ε := Fault)
          ((s.selected keep).rows.map fun r => { r with cost := coord s.costs r.basic }) :=
    mapM_eq_ok fun r hr => by
      have hlt : r.basic < s.costs.length := selected_basics h hb r hr
      rw [bind_eq (fetch_eq_ok hlt), coord_of_lt hlt]
      rfl
  rw [bind_eq (restrict_eq_ok h hl), loadCosts]
  change ((s.selected keep).rows.mapM (fun r => do
    return { r with cost := ← fetch s.costs r.basic }) >>= _) = _
  rw [bind_eq hcosts, selected, List.map_map]
  rfl

section Restricted

variable {s : State Rat} {keep : List Bool}

theorem restricted_rowCount (hl : keep.length = s.rowCount) :
    (s.restricted keep).rowCount = (positions keep).length := by
  simp [restricted, State.rowCount, pick_eq hl ⟨0, 0, []⟩]

@[simp]
theorem restricted_costs (s : State Rat) (keep : List Bool) :
    (s.restricted keep).costs = s.costs := rfl

@[simp]
theorem restricted_values (s : State Rat) (keep : List Bool) :
    (s.restricted keep).values = s.values := rfl

@[simp]
theorem restricted_variableCount (s : State Rat) (keep : List Bool) :
    (s.restricted keep).variableCount = s.variableCount := by
  simp [restricted, State.variableCount]

theorem restricted_row (hl : keep.length = s.rowCount) {q : Nat}
    (hq : q < (positions keep).length) : (s.restricted keep).row q =
      let r := s.row ((positions keep).getD q 0)
      ⟨r.basic, coord s.costs r.basic, pick keep r.inverse⟩ := by
  simp [restricted, State.row, pick_eq hl ⟨0, 0, []⟩, hq]

theorem restricted_column (h : s.Shaped) (hl : keep.length = s.rowCount) {j : Nat}
    (hj : j < s.variableCount) {q : Nat} (hq : q < (positions keep).length) :
    coord ((s.restricted keep).column j) q =
      coord (s.column j) ((positions keep).getD q 0) := by
  have hc : (s.restricted keep).column j = pick keep (s.column j) := by
    rw [column_eq hj, State.column]
    simp [restricted, show j < s.columns.length from hj]
    rfl
  rw [hc, coord_pick (hl.trans (h.column_length hj).symm) hq]

theorem restricted_shaped (h : s.Shaped) (hl : keep.length = s.rowCount) :
    (s.restricted keep).Shaped := by
  have hlen {xs : List Rat} (hx : xs.length = s.rowCount) :
      (pick keep xs).length = (s.restricted keep).rowCount := by
    simp [restricted_rowCount hl, pick_eq (hl.trans hx.symm) 0]
  refine ⟨?_, ?_, ?_, ?_, h.inBasis, ?_⟩
  · intro x hx
    obtain ⟨y, hy, rfl⟩ := List.mem_map.mp hx
    exact hlen (h.columns y hy)
  · simpa using h.costs
  · intro r hr
    obtain ⟨q, hq, rfl⟩ := List.mem_map.mp hr
    exact hlen (h.inverses q (mem_rows_of_pick hq))
  · intro r hr
    obtain ⟨q, hq, rfl⟩ := List.mem_map.mp hr
    exact h.basics q (mem_rows_of_pick hq)
  · simpa using h.values

end Restricted

namespace Cleanup.Valid

variable {s : State Rat} {b : Nat → Rat} {c : Cleanup Rat}

/-- A kept row is the one at its position before. -/
theorem position (h : c.Valid s b s.rowCount) {q : Nat} (hq : q < (positions c.keep).length) :
    (positions c.keep).getD q 0 ∈ positions c.keep ∧
      (positions c.keep).getD q 0 < c.state.rowCount ∧
        (c.state.row ((positions c.keep).getD q 0)).basic < c.state.variableCount := by
  have hmem := getD_mem hq 0
  refine ⟨hmem, h.position_lt hmem, ?_⟩
  rw [h.variableCount]
  exact h.kept _ (mem_positions.mp hmem)

theorem restricted_express (h : c.Valid s b s.rowCount) (x : Nat → Rat) {q : Nat}
    (hq : q < (positions c.keep).length) :
    (c.state.restricted c.keep).express (fun k => x ((positions c.keep).getD k 0)) q =
      c.state.express x ((positions c.keep).getD q 0) := by
  have hl := h.keep.trans h.rowCount.symm
  obtain ⟨hmem, hlt, -⟩ := h.position hq
  rw [← h.express_kept x hmem, express, restricted_rowCount hl, restricted_row hl hq]
  apply sum_range_congr
  intro k hk
  rw [coord_pick (hl.trans (h.solved.shaped.inverse_length hlt).symm) hk]

theorem restricted_basic (h : c.Valid s b s.rowCount) {q : Nat}
    (hq : q < (positions c.keep).length) :
    ((c.state.restricted c.keep).row q).basic =
      (c.state.row ((positions c.keep).getD q 0)).basic := by
  rw [restricted_row (h.keep.trans h.rowCount.symm) hq]

/-- A variable of the program is basic in a kept row if it is basic at all. -/
theorem restricted_marked (h : c.Valid s b s.rowCount) {j : Nat} (hj : j < c.state.variableCount) :
    (∃ i < c.state.rowCount, (c.state.row i).basic = j) ↔
      ∃ q < (positions c.keep).length, ((c.state.restricted c.keep).row q).basic = j := by
  constructor
  · rintro ⟨i, hi, rfl⟩
    rcases h.keep_of_lt (h.rowCount ▸ hi) with hpos | hd
    · obtain ⟨q, hq, rfl⟩ := List.getElem_of_mem hpos
      refine ⟨q, hq, ?_⟩
      rw [h.restricted_basic hq, List.getD_eq_getElem _ _ hq]
    · have := (h.dropped i hd).1
      rw [← h.variableCount] at this
      omega
  · rintro ⟨q, hq, rfl⟩
    exact ⟨_, (h.position hq).2.1, (h.restricted_basic hq).symm⟩

/-- The picked part of the inverse is the inverse of the basis that is left. -/
theorem restricted_inverse (h : c.Valid s b s.rowCount) {p q : Nat}
    (hp : p < (positions c.keep).length) (hq : q < (positions c.keep).length) :
    (c.state.restricted c.keep).express
      ((c.state.restricted c.keep).fullColumn ((c.state.restricted c.keep).row q).basic) p =
        if p = q then 1 else 0 := by
  have hl := h.keep.trans h.rowCount.symm
  have hn := restricted_variableCount c.state c.keep
  obtain ⟨-, hplt, -⟩ := h.position hp
  obtain ⟨-, hqlt, hqb⟩ := h.position hq
  have hcol : ∀ k < (c.state.restricted c.keep).rowCount,
      (c.state.restricted c.keep).fullColumn ((c.state.restricted c.keep).row q).basic k =
        c.state.fullColumn (c.state.row ((positions c.keep).getD q 0)).basic
          ((positions c.keep).getD k 0) := by
    intro k hk
    rw [restricted_rowCount hl] at hk
    simp only [h.restricted_basic hq, fullColumn_of_lt (hn ▸ hqb), fullColumn_of_lt hqb,
      restricted_column h.solved.shaped hl hqb hk]
  have hiff : (positions c.keep).getD p 0 = (positions c.keep).getD q 0 ↔ p = q := by
    rw [List.getD_eq_getElem _ _ hp, List.getD_eq_getElem _ _ hq]
    exact (positions_nodup c.keep).getElem_inj_iff
  rw [express_congr _ hcol, h.restricted_express _ hp, h.solved.inverse _ hplt _ hqlt]
  simp only [hiff]

theorem restricted_solved (h : c.Valid s b s.rowCount) (hz : s.Clear) :
    (c.state.restricted c.keep).Solved fun q => b ((positions c.keep).getD q 0) := by
  have hs := h.solved
  have hn := restricted_variableCount c.state c.keep
  have hm := restricted_rowCount (h.keep.trans h.rowCount.symm)
  refine ⟨restricted_shaped hs.shaped (h.keep.trans h.rowCount.symm), ?_, ?_, ?_, ?_, ?_⟩
  · intro p hp q hq
    rw [hm] at hp hq
    exact h.restricted_inverse hp hq
  · intro j hj
    rw [hn] at hj
    rw [hm, ← h.restricted_marked hj]
    exact hs.marked j hj
  · intro q hq hb
    rw [hm] at hq
    rw [h.restricted_basic hq, hn] at hb
    exact absurd (h.position hq).2.2 (Nat.not_lt.mpr hb)
  · intro q hq
    rw [hm] at hq
    rw [h.restricted_express b hq, h.restricted_basic hq]
    exact hs.basic_value _ (h.position hq).2.1
  · intro v hv
    rw [hm] at hv
    change c.state.value v = 0
    by_cases hvn : v < c.state.variableCount
    · apply hs.other_value v
      intro i hi hb
      obtain ⟨q, hq, e⟩ := (h.restricted_marked hvn).mp ⟨i, hi, hb⟩
      exact hv q hq e
    · rw [h.value]
      exact hz v (h.variableCount ▸ Nat.le_of_not_lt hvn)

theorem reduction (h : c.Valid s b s.rowCount) (hz : s.Clear) :
    s.Reduction b (positions c.keep) (c.state.restricted c.keep) := by
  have hl := h.keep.trans h.rowCount.symm
  have hn := restricted_variableCount c.state c.keep
  have hbasics : ∀ i < (c.state.restricted c.keep).rowCount,
      ((c.state.restricted c.keep).row i).basic < (c.state.restricted c.keep).variableCount := by
    intro i hi
    rw [restricted_rowCount hl] at hi
    rw [h.restricted_basic hi, hn]
    exact (h.position hi).2.2
  exact {
    phase := h.phase
    costs := h.costs
    columns := by
      rw [← h.columns]
      apply List.map_congr_left
      intro x hx
      exact pick_eq (hl.trans (h.solved.shaped.columns x hx).symm) 0
    sorted := positions_sorted c.keep
    inside := fun k hk => h.rowCount ▸ h.position_lt hk
    rowCount := restricted_rowCount hl
    solved := h.restricted_solved hz
    basics := hbasics
    priced := fun i hi => by
      rw [if_pos (hbasics i hi), phaseCost,
        show (c.state.restricted c.keep).phase = .two from h.phase]
      rw [restricted_rowCount hl] at hi
      rw [restricted_row hl hi]
      rfl
    value := h.value
    complete := fun x hx k hk => h.complete hz hx hk }

end Cleanup.Valid

/-! ## Finishing -/

theorem artificialSum_eq (s : State Rat) : s.artificialSum =
    ∑ v ∈ range (s.values.length - s.variableCount), s.value (s.variableCount + v) := by
  rw [artificialSum, sum_coord, List.length_drop]
  exact sum_range_congr fun v _ => by simp [value, coord]

/-- The artificial variables have a positive sum only if the basis has a cost. -/
theorem Solved.basisCost_pos {s : State Rat} {b : Nat → Rat} (h : s.Solved b) (hp : s.Priced)
    (hs : s.phase = .one) (hv : ∀ v, 0 ≤ s.value v) (ha : 0 < s.artificialSum) :
    0 < s.basisCost := by
  have hcost : ∀ i ∈ range s.rowCount, 0 ≤ (s.row i).cost * s.value (s.row i).basic := by
    intro i hi
    refine mul_nonneg ?_ (hv _)
    rw [hp i (Finset.mem_range.mp hi), phaseCost, hs]
    split <;> norm_num
  rw [artificialSum_eq] at ha
  obtain ⟨v, hpos⟩ : ∃ v, 0 < s.value (s.variableCount + v) := by
    by_contra hno
    exact absurd ha (not_lt.mpr (Finset.sum_nonpos fun v _ => not_lt.mp fun hv => hno ⟨v, hv⟩))
  obtain ⟨i, hi, e⟩ : ∃ i < s.rowCount, (s.row i).basic = s.variableCount + v := by
    by_contra hno
    refine hpos.ne' (h.other_value _ fun i hi e => hno ⟨i, hi, e⟩)
  refine lt_of_lt_of_le ?_ (Finset.single_le_sum hcost (Finset.mem_range.mpr hi))
  rw [hp i hi, e, if_neg (by omega), one_mul]
  exact hpos

theorem clear_of_artificialSum {s : State Rat} (hv : ∀ v, 0 ≤ s.value v)
    (ha : s.artificialSum ≤ 0) : s.Clear := by
  intro v hn
  by_cases hl : v < s.values.length
  · rw [artificialSum_eq] at ha
    have hzero := (Finset.sum_eq_zero_iff_of_nonneg fun v _ => hv (s.variableCount + v)).mp
      (le_antisymm ha (Finset.sum_nonneg fun v _ => hv _))
    have := hzero (v - s.variableCount) (Finset.mem_range.mpr (by omega))
    rwa [Nat.add_sub_cancel' hn] at this
  · exact coord_of_le (by omega)

/-- There is no phase two only if the artificial variables cannot vanish; otherwise it starts from a
reduction. -/
theorem finishPhaseOne_ok {s : State Rat} {b : Nat → Rat} (h : s.Solved b)
    (hv : ∀ v, 0 ≤ s.value v) :
    (0 < s.artificialSum ∧ s.finishPhaseOne = .ok none) ∨
      ∃ t events c, s.finishPhaseOne = .ok (some (t, events)) ∧ s.Clear ∧
        (List.range s.rowCount).foldlM Cleanup.look ⟨{ s with phase := .two }, [], []⟩ = .ok c ∧
        s.Reduction b (positions c.keep) t := by
  unfold finishPhaseOne
  rw [below_eq]
  by_cases ha : 0 < s.artificialSum
  · exact .inl ⟨ha, by simp only [ha, decide_true, if_true]; rfl⟩
  · have hz := clear_of_artificialSum hv (not_lt.mp ha)
    obtain ⟨c, hc, hvalid⟩ := Cleanup.looks_ok hz h le_rfl
    have hred := hvalid.reduction hz
    have hload := restricted_eq_ok hvalid.solved.shaped (hvalid.keep.trans hvalid.rowCount.symm)
      hvalid.fits.basics
    refine .inr ⟨c.state.restricted c.keep,
      c.events ++ (if c.keep.count false = 0 then [] else [.redundant (c.keep.count false)]) ++
        [.phaseTwo (c.state.restricted c.keep).rowCount], c, ?_, hz, hc, hred⟩
    simp only [ha, decide_false, Bool.false_eq_true, if_false]
    rw [bind_eq hc]
    rw [← bind_assoc, bind_eq hload]
    rfl

end State
end LinearProgramming.Simplex
