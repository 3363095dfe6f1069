import LinearProgramming.Proofs.Simplex.Shape

/-!
# One exchange of basis

`pivot_eq_ok`: an exchange along the direction of the entering variable does exactly what `Exchange`
says, whatever the sign of the pivot, as long as that is not zero.
-/

namespace LinearProgramming.Simplex.State

open Finset

/-- `t` is `s` after variable `j` has taken the place of the variable of row `i`, where `d` is the
direction of `j`. -/
structure Exchange (s t : State Rat) (i j : Nat) (d : List Rat) : Prop where
  columns : t.columns = s.columns
  costs : t.costs = s.costs
  phase : t.phase = s.phase
  rowCount : t.rowCount = s.rowCount
  values_length : t.values.length = s.values.length
  basic : ∀ r < s.rowCount, (t.row r).basic = if r = i then j else (s.row r).basic
  cost : ∀ r < s.rowCount, (t.row r).cost = if r = i then s.phaseCost j else (s.row r).cost
  inverse : ∀ r < s.rowCount, ∀ k < s.rowCount, coord (t.row r).inverse k =
    if r = i then coord (s.row i).inverse k / coord d i
    else coord (s.row r).inverse k - coord d r * (coord (s.row i).inverse k / coord d i)
  marked : ∀ v, t.marked v = if v = j then true else if v = (s.row i).basic then false
    else s.marked v
  value : ∀ v, t.value v = if v = j then s.ratio d i else s.value v -
    ∑ r ∈ range s.rowCount, if (s.row r).basic = v then s.ratio d i * coord d r else 0
  shaped : t.Shaped

/-- The values after the basic variables of the first `n` rows have followed a step. -/
structure Followed (s : State Rat) (step : Rat) (d : List Rat) (n : Nat) (values : List Rat) :
    Prop where
  length : values.length = s.values.length
  value : ∀ v, coord values v = s.value v -
    ∑ r ∈ range n, if (s.row r).basic = v then step * coord d r else 0

theorem Followed.next {s : State Rat} (h : s.Shaped) {step : Rat} {d : List Rat} {n : Nat}
    (hn : n < s.rowCount) {values : List Rat} (f : s.Followed step d n values) :
    ∃ next, (fetch values (s.row n).basic >>= fun x =>
      assign values (s.row n).basic (x - step * coord d n)) = .ok next ∧
        s.Followed step d (n + 1) next := by
  have hb : (s.row n).basic < values.length := f.length ▸ h.basic_lt hn
  rw [fetch_eq_ok hb, ← coord_of_lt hb]
  refine ⟨_, assign_eq_ok _ hb, by rw [List.length_set, f.length], ?_⟩
  intro v
  rw [coord_set, Finset.sum_range_succ]
  by_cases hv : (s.row n).basic = v
  · subst hv
    simp only [hb, and_self, if_true, f.value]
    ring
  · simp only [hv, false_and, if_false, f.value, add_zero]

theorem move_eq_ok {s : State Rat} (h : s.Shaped) {d : List Rat} (hl : d.length = s.rowCount)
    {j : Nat} (hj : j < s.variableCount) (step : Rat) :
    ∃ values, s.move j step d = .ok values ∧ values.length = s.values.length ∧
      ∀ v, coord values v = if v = j then step else s.value v -
        ∑ r ∈ range s.rowCount, if (s.row r).basic = v then step * coord d r else 0 := by
  have hz : zipChecked (fun (r : BasisRow Rat) x => (r.basic, x)) s.rows d =
      .ok (s.rows.zipWith (fun r x => (r.basic, x)) d) := zipChecked_eq_ok _ _ _ hl.symm
  have hlen : (s.rows.zipWith (fun (r : BasisRow Rat) x => (r.basic, x)) d).length =
      s.rowCount := by
    simp [hl, rowCount]
  obtain ⟨moved, hm, f⟩ := foldlM_ok (fun (values : List Rat) (t : Nat × Rat) => do
      assign values t.1 ((← fetch values t.1) - step * t.2))
    (s.rows.zipWith (fun r x => (r.basic, x)) d) s.values (s.Followed step d)
    ⟨rfl, fun v => by simp [value]⟩
    fun n hn values f => by
      have hn' : n < s.rows.length := hn.trans_eq hlen
      have hd : n < d.length := hl ▸ hn'
      rw [List.getElem_zipWith, ← row_eq hn', ← coord_of_lt hd]
      exact f.next h hn'
  rw [hlen] at f
  have hj' : j < moved.length := f.length ▸ Nat.lt_of_lt_of_le hj h.values
  refine ⟨moved.set j step, ?_, by rw [List.length_set, f.length], ?_⟩
  · unfold move
    rw [bind_eq hz]
    exact (bind_eq hm _).trans (assign_eq_ok _ hj')
  · intro v
    rw [coord_set]
    by_cases hv : j = v
    · simp [hv, hv ▸ hj']
    · simp [hv, Ne.symm hv, f.value]

/-- The rows after an exchange that gives the entering variable a cost. -/
def exchangeRows (s : State Rat) (i j : Nat) (cost : Rat) (d : List Rat) : List (BasisRow Rat) :=
  let scaled := (s.row i).inverse.map fun x => x / coord d i
  (s.rows.zipWith Prod.mk d).zipIdx.map fun t =>
    if t.2 = i then ⟨j, cost, scaled⟩
    else { t.1.1 with inverse := t.1.1.inverse.zipWith (fun y x => y - t.1.2 * x) scaled }

theorem exchangeRows_eq_ok {s : State Rat} (h : s.Shaped) (d : List Rat) {i : Nat}
    (hi : i < s.rowCount) (j : Nat) (cost : Rat) :
    ((s.rows.zipWith Prod.mk d).zipIdx.mapM fun (t : (BasisRow Rat × Rat) × Nat) =>
      match t with
      | ((r, x), q) =>
        if q = i then
          (pure ⟨j, cost, (s.row i).inverse.map fun x => x / coord d i⟩ :
            Except Fault (BasisRow Rat))
        else do
          let inverse ← subMultiple r.inverse x ((s.row i).inverse.map fun x => x / coord d i)
          return { r with inverse }) = .ok (s.exchangeRows i j cost d) := by
  apply mapM_eq_ok
  rintro ⟨⟨r, x⟩, q⟩ ht
  by_cases hq : q = i
  · simp [hq, pure, Except.pure]
  · have hr : r ∈ s.rows := by
      obtain ⟨k, hk, hkt⟩ := List.getElem_of_mem (List.fst_mem_of_mem_zipIdx ht)
      rw [List.getElem_zipWith] at hkt
      exact (Prod.mk.inj hkt).1 ▸ List.getElem_mem _
    have hl : r.inverse.length = ((s.row i).inverse.map fun x => x / coord d i).length := by
      simp [h.inverses r hr, h.inverse_length hi]
    simp only [hq, if_false]
    rw [bind_eq (subMultiple_eq_ok x hl)]
    rfl

theorem exchangeRows_length {s : State Rat} {d : List Rat} (hl : d.length = s.rowCount)
    (i j : Nat) (cost : Rat) : (s.exchangeRows i j cost d).length = s.rowCount := by
  simp [exchangeRows, hl, rowCount]

theorem pivot_eq {s : State Rat} (h : s.Shaped) {d : List Rat} (hl : d.length = s.rowCount)
    {i j : Nat} (hi : i < s.rowCount) (hj : j < s.variableCount) (hd : coord d i ≠ 0)
    {values : List Rat} (hm : s.move j (s.ratio d i) d = .ok values) :
    s.pivot i j d = .ok { s with
      rows := s.exchangeRows i j (s.phaseCost j) d
      inBasis := (s.inBasis.set (s.row i).basic false).set j true
      values := values } := by
  have hdl : i < d.length := hl ▸ hi
  have hdi : fetch d i = .ok (coord d i) := coord_of_lt hdl ▸ fetch_eq_ok hdl
  have hb := h.basic_lt hi
  have hscaled := mapM_eq_ok (fun x (_ : x ∈ (s.row i).inverse) => divide_eq_ok x hd)
  have hz : zipChecked Prod.mk s.rows d = .ok (s.rows.zipWith Prod.mk d) :=
    zipChecked_eq_ok _ _ _ hl.symm
  have hout := assign_eq_ok false (h.inBasis ▸ hb)
  have hjl : j < (s.inBasis.set (s.row i).basic false).length := by
    rw [List.length_set, h.inBasis]
    exact Nat.lt_of_lt_of_le hj h.values
  have hin := assign_eq_ok true hjl
  have hm : s.move j (s.value (s.row i).basic / coord d i) d = .ok values := hm
  unfold pivot phaseCost
  rw [bind_eq (fetch_row hi), bind_eq hdi, bind_eq (fetch_value hb), bind_eq (divide_eq_ok _ hd),
    bind_eq hm, bind_eq hscaled]
  cases s.phase
  · change (zipChecked Prod.mk s.rows d >>= _) = _
    rw [bind_eq hz, bind_eq (exchangeRows_eq_ok h d hi j 0), bind_eq hout, bind_eq hin]
    rfl
  · have hc := h.costs ▸ hj
    dsimp only
    rw [bind_eq (fetch_eq_ok hc), bind_eq hz, bind_eq (exchangeRows_eq_ok h d hi j _),
      bind_eq hout, bind_eq hin, coord_of_lt hc]
    rfl

theorem exchangeRows_row {s : State Rat} {d : List Rat} (hl : d.length = s.rowCount)
    (i j : Nat) (cost : Rat) {r : Nat} (hr : r < s.rowCount) :
    (s.exchangeRows i j cost d).getD r ⟨0, 0, []⟩ =
      let scaled := (s.row i).inverse.map fun x => x / coord d i
      if r = i then ⟨j, cost, scaled⟩
      else ⟨(s.row r).basic, (s.row r).cost,
        (s.row r).inverse.zipWith (fun y x => y - coord d r * x) scaled⟩ := by
  have hrl : r < (s.exchangeRows i j cost d).length := by rwa [exchangeRows_length hl]
  have hrd : r < d.length := hl ▸ hr
  rw [row_eq hr, coord_of_lt hrd, List.getD_eq_getElem _ _ hrl]
  simp only [exchangeRows, List.getElem_map, List.getElem_zipIdx, List.getElem_zipWith,
    Nat.zero_add]
  rfl

/-- Every row after an exchange fits the state. -/
theorem exchangeRows_fit {s : State Rat} (h : s.Shaped) {d : List Rat} (hl : d.length = s.rowCount)
    {i j : Nat} (hi : i < s.rowCount) (hj : j < s.variableCount) {cost : Rat} {r : BasisRow Rat}
    (hr : r ∈ s.exchangeRows i j cost d) :
    r.inverse.length = s.rowCount ∧ r.basic < s.values.length := by
  obtain ⟨q, hq, rfl⟩ := List.getElem_of_mem hr
  have hq' : q < s.rowCount := exchangeRows_length hl i j cost ▸ hq
  have hil := h.inverse_length hi
  rw [← List.getD_eq_getElem _ ⟨0, 0, []⟩ hq, exchangeRows_row hl i j cost hq']
  dsimp only
  split
  · exact ⟨by rw [List.length_map, hil], Nat.lt_of_lt_of_le hj h.values⟩
  · exact ⟨by simp [h.inverse_length hq', hil], h.basic_lt hq'⟩

theorem exchange_marked {s : State Rat} (h : s.Shaped) {i j : Nat} (hi : i < s.rowCount)
    (hj : j < s.variableCount) (v : Nat) :
    ((s.inBasis.set (s.row i).basic false).set j true).getD v false =
      if v = j then true else if v = (s.row i).basic then false else s.marked v := by
  have hb := h.inBasis ▸ h.basic_lt hi
  have hjl : j < s.inBasis.length := h.inBasis ▸ Nat.lt_of_lt_of_le hj h.values
  simp only [marked, List.getD_eq_getElem?_getD, List.getElem?_set, List.length_set]
  by_cases hvj : j = v
  · simp [← hvj, hjl]
  · by_cases hvb : (s.row i).basic = v
    · subst hvb
      simp [hvj, Ne.symm hvj, hb]
    · simp [hvj, hvb, Ne.symm hvj, Ne.symm hvb]

theorem pivot_eq_ok {s : State Rat} (h : s.Shaped) {d : List Rat} (hl : d.length = s.rowCount)
    {i j : Nat} (hi : i < s.rowCount) (hj : j < s.variableCount) (hd : coord d i ≠ 0) :
    ∃ t, s.pivot i j d = .ok t ∧ t.pivots = s.pivots ∧ Exchange s t i j d := by
  obtain ⟨values, hm, hvl, hv⟩ := move_eq_ok h hl hj (s.ratio d i)
  have hrc := exchangeRows_length hl i j (s.phaseCost j)
  refine ⟨_, pivot_eq h hl hi hj hd hm, rfl, ?_⟩
  have hrow (r : Nat) (hr : r < s.rowCount) := exchangeRows_row hl i j (s.phaseCost j) hr
  refine ⟨rfl, rfl, rfl, hrc, hvl, ?_, ?_, ?_, exchange_marked h hi hj, hv, ?_⟩
  · intro r hr
    rw [row, hrow r hr]
    split <;> rfl
  · intro r hr
    rw [row, hrow r hr]
    split <;> rfl
  · intro r hr k hk
    have hki : k < (s.row i).inverse.length := h.inverse_length hi ▸ hk
    have hkr : k < (s.row r).inverse.length := h.inverse_length hr ▸ hk
    rw [row, hrow r hr]
    split
    · rw [coord_map _ _ hki, coord_of_lt hki]
    · rw [coord_zipWith _ _ _ hkr (by rwa [List.length_map]), coord_map _ _ hki,
        ← coord_of_lt hki, ← coord_of_lt hkr]
  · exact {
      columns := fun c hc => (h.columns c hc).trans hrc.symm
      costs := h.costs
      inverses := fun r hr => (exchangeRows_fit h hl hi hj hr).1.trans hrc.symm
      basics := fun r hr => hvl ▸ (exchangeRows_fit h hl hi hj hr).2
      inBasis := by simp [h.inBasis, hvl]
      values := hvl ▸ h.values }

end LinearProgramming.Simplex.State
