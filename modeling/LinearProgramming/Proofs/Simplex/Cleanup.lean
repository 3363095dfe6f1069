import LinearProgramming.Proofs.Simplex.Certificate

/-!
# Artificial variables leave the basis

The rows are looked at one after the other (`Cleanup.look`). Since all artificial variables are
zero by then, no exchange changes a value.

* `Cleanup.Valid`: a kept row has a variable of the program, and in a dropped row no variable of the
  program has an entry;
* `Cleanup.Looked`: what looking at one row may come to, whatever the values are;
* `Cleanup.Fits`, `Cleanup.Fits.looked`: the shape that is kept whatever the values are;
* `Cleanup.look_ok`, `Cleanup.looks_ok`: a valid cleanup stays valid, row after row.
-/

namespace LinearProgramming.Simplex.State

/-- No artificial variable is above zero. -/
def Clear (s : State Rat) : Prop := ∀ v, s.variableCount ≤ v → s.value v = 0

/-- No variable of the program has an entry in the row. -/
def Vacant (s : State Rat) (i : Nat) : Prop :=
  ∀ j < s.variableCount, s.express (coord (s.column j)) i = 0

namespace Cleanup

/-- What the cleanup of a state has come to after a number of rows. -/
structure Valid (s : State Rat) (b : Nat → Rat) (n : Nat) (c : Cleanup Rat) : Prop where
  columns : c.state.columns = s.columns
  costs : c.state.costs = s.costs
  phase : c.state.phase = .two
  rowCount : c.state.rowCount = s.rowCount
  values_length : c.state.values.length = s.values.length
  value : ∀ v, c.state.value v = s.value v
  solved : c.state.Solved b
  keep : c.keep.length = n
  kept : ∀ r, c.keep[r]? = some true → (c.state.row r).basic < s.variableCount
  dropped : ∀ r, c.keep[r]? = some false →
    s.variableCount ≤ (c.state.row r).basic ∧ c.state.Vacant r

variable {s : State Rat} {b : Nat → Rat} {n : Nat} {c : Cleanup Rat}

theorem Valid.variableCount (h : c.Valid s b n) : c.state.variableCount = s.variableCount := by
  simp only [State.variableCount, h.columns]

theorem getElem?_concat {keep : List Bool} {n r : Nat} {flag last : Bool} (hk : keep.length = n)
    (h : (keep ++ [last])[r]? = some flag) :
    (r < n ∧ keep[r]? = some flag) ∨ (r = n ∧ flag = last) := by
  rw [List.getElem?_append, hk] at h
  split at h
  · next hr => exact .inl ⟨hr, h⟩
  · next hr =>
    obtain ⟨hr', e⟩ := List.getElem?_eq_some_iff.mp h
    have hz : r - n = 0 := by simpa using hr'
    exact .inr ⟨by omega, by simpa [hz] using e.symm⟩

/-- A row that needs no exchange. -/
theorem Valid.concat (h : c.Valid s b n) {last : Bool}
    (hk : last = true → (c.state.row n).basic < s.variableCount)
    (hd : last = false → s.variableCount ≤ (c.state.row n).basic ∧ c.state.Vacant n) :
    Valid s b (n + 1) { c with keep := c.keep ++ [last] } where
  columns := h.columns
  costs := h.costs
  phase := h.phase
  rowCount := h.rowCount
  values_length := h.values_length
  value := h.value
  solved := h.solved
  keep := by rw [List.length_append, h.keep, List.length_singleton]
  kept r hr := by
    rcases getElem?_concat h.keep hr with ⟨-, hr⟩ | ⟨rfl, hl⟩
    · exact h.kept r hr
    · exact hk hl.symm
  dropped r hr := by
    rcases getElem?_concat h.keep hr with ⟨-, hr⟩ | ⟨rfl, hl⟩
    · exact h.dropped r hr
    · exact hd hl.symm

/-- A row whose artificial variable is exchanged for a variable of the program. -/
theorem Valid.exchange (h : c.Valid s b n) (hz : s.Clear) {t : State Rat} {j : Nat} {d : List Rat}
    (e : Exchange c.state t n j d) (hn : n < c.state.rowCount) (hj : j < c.state.variableCount)
    (hu : c.state.marked j = false) (hb : c.state.variableCount ≤ (c.state.row n).basic)
    (hd : coord d n ≠ 0)
    (hdir : ∀ r < c.state.rowCount, coord d r = c.state.express (coord (c.state.column j)) r)
    (events : List Event) : Valid s b (n + 1) ⟨t, c.keep ++ [true], events⟩ where
  columns := e.columns.trans h.columns
  costs := e.costs.trans h.costs
  phase := e.phase.trans h.phase
  rowCount := e.rowCount.trans h.rowCount
  values_length := e.values_length.trans h.values_length
  value v := by
    have hzero : c.state.value (c.state.row n).basic = 0 := by
      rw [h.value]
      exact hz _ (h.variableCount ▸ hb)
    rw [← h.value]
    exact e.value_eq h.solved hj hu hzero v
  solved := e.solved h.solved hn hj hu hd hdir
  keep := by rw [List.length_append, h.keep, List.length_singleton]
  kept r hr := by
    rcases getElem?_concat h.keep hr with ⟨hlt, hr⟩ | ⟨rfl, -⟩
    · rw [e.basic r (by omega), if_neg hlt.ne]
      exact h.kept r hr
    · rw [e.basic r hn, if_pos rfl, ← h.variableCount]
      exact hj
  dropped r hr := by
    rcases getElem?_concat h.keep hr with ⟨hlt, hr⟩ | ⟨-, hl⟩
    · obtain ⟨hb, hv⟩ := h.dropped r hr
      have hrm : r < c.state.rowCount := by omega
      refine ⟨by rwa [e.basic r hrm, if_neg hlt.ne], ?_⟩
      intro q hq
      -- the entering variable has no entry in a dropped row either
      have hdr : coord d r = 0 := by rw [hdir r hrm, hv j hj]
      rw [e.variableCount_eq] at hq
      rw [State.column, e.columns, ← State.column, e.express_eq _ hrm, if_neg hlt.ne, hdr,
        zero_mul, sub_zero]
      exact hv q hq
    · exact absurd hl (by decide)

/-- In a row with an artificial variable, only variables out of the basis can have an entry. -/
theorem vacant_of_unmarked {s : State Rat} {b : Nat → Rat} (h : s.Solved b) {i : Nat}
    (hi : i < s.rowCount) (hb : s.variableCount ≤ (s.row i).basic)
    (hu : ∀ j < s.variableCount, s.marked j = false → s.express (coord (s.column j)) i = 0) :
    s.Vacant i := by
  intro j hj
  cases hm : s.marked j
  · exact hu j hj hm
  · obtain ⟨r, hr, rfl⟩ := (h.marked j hj).mp hm
    have hne : i ≠ r := fun e => by
      subst e
      omega
    simp [← fullColumn_of_lt hj, h.inverse i hi r hr, hne]

/-- The search looks for a nonzero entry of the row out of the basis. -/
theorem hasEntry_eq_ok {s : State Rat} (h : s.Shaped) {i j : Nat} (hi : i < s.rowCount)
    (hj : j < s.variableCount) : (do
      let x ← dot (s.row i).inverse (← fetch s.columns j)
      return !Scalar.near x 0) = .ok (!decide (s.express (coord (s.column j)) i = 0)) := by
  have hil := h.inverse_length hi
  have hdot := dot_eq_ok (hil.trans (h.column_length hj).symm)
  rw [hil] at hdot
  rw [bind_eq (fetch_column hj), bind_eq hdot]
  rfl

/-- What looking at row `n` may come to: it is kept, dropped or exchanged. -/
inductive Looked (c : Cleanup Rat) (n : Nat) : Cleanup Rat → Prop where
  | kept (structural : (c.state.row n).basic < c.state.variableCount) :
    Looked c n { c with keep := c.keep ++ [true] }
  | dropped (artificial : c.state.variableCount ≤ (c.state.row n).basic)
    (vacant : ∀ j < c.state.variableCount, c.state.marked j = false →
      c.state.express (coord (c.state.column j)) n = 0) :
    Looked c n { c with keep := c.keep ++ [false] }
  | exchanged {t : State Rat} {j : Nat} {d : List Rat} {events : List Event}
    (artificial : c.state.variableCount ≤ (c.state.row n).basic) (lt : j < c.state.variableCount)
    (unmarked : c.state.marked j = false) (direction : c.state.direction j = .ok d)
    (entry : coord d n ≠ 0) (pivot : c.state.pivot n j d = .ok t)
    (expressed : ∀ r < c.state.rowCount, coord d r = c.state.express (coord (c.state.column j)) r)
    (exchange : Exchange c.state t n j d) :
    Looked c n ⟨t, c.keep ++ [true], events⟩

/-- The row is found, and what it is exchanged by is not zero, whatever the values are. -/
theorem look_looked (hs : c.state.Shaped) (hn : n < c.state.rowCount) :
    ∃ next, c.look n = .ok next ∧ c.Looked n next := by
  unfold look
  rw [bind_eq (fetch_row hn)]
  by_cases hb : (c.state.row n).basic < c.state.variableCount
  · rw [if_pos hb]
    exact ⟨_, rfl, .kept hb⟩
  rw [if_neg hb]
  have hb := Nat.le_of_not_lt hb
  rw [bind_eq (hs.firstNonbasic_eq_ok fun j hj => hasEntry_eq_ok hs hn hj)]
  cases hr : (List.range c.state.variableCount).find? fun j => !c.state.marked j &&
      !decide (c.state.express (coord (c.state.column j)) n = 0) with
  | none =>
    refine ⟨_, rfl, .dropped hb fun j hj hm => ?_⟩
    simpa [hm] using List.find?_eq_none.mp hr j (List.mem_range.mpr hj)
  | some j =>
    obtain ⟨hj, hmem, -⟩ := List.find?_range_eq_some.mp hr
    have hlt := List.mem_range.mp hmem
    simp only [Bool.and_eq_true, Bool.not_eq_true', decide_eq_false_iff_not] at hj
    obtain ⟨d, hd, hdl, hdir⟩ := hs.direction_eq_ok hlt
    have hdn : coord d n ≠ 0 := hdir n hn ▸ hj.2
    obtain ⟨t, ht, -, e⟩ := pivot_eq_ok hs hdl hn hlt hdn
    refine ⟨⟨t, c.keep ++ [true], c.events ++ [.artificialOut n j]⟩, ?_,
      .exchanged hb hlt hj.1 hd hdn ht hdir e⟩
    change (c.state.direction j >>= _) = _
    rw [bind_eq hd, bind_eq ht]
    rfl

/-! ## Shape -/

/-- What holds of a cleanup after `n` rows, whatever the values are. -/
structure Fits (s : State Rat) (n : Nat) (c : Cleanup Rat) : Prop where
  shaped : c.state.Shaped
  variableCount : c.state.variableCount = s.variableCount
  rowCount : c.state.rowCount = s.rowCount
  keep : c.keep.length = n
  kept : ∀ r, c.keep[r]? = some true → (c.state.row r).basic < c.state.variableCount

theorem Valid.fits (h : c.Valid s b n) : c.Fits s n where
  shaped := h.solved.shaped
  variableCount := h.variableCount
  rowCount := h.rowCount
  keep := h.keep
  kept r hr := h.variableCount ▸ h.kept r hr

theorem Fits.concat (h : c.Fits s n) {last : Bool}
    (hk : last = true → (c.state.row n).basic < c.state.variableCount) :
    Fits s (n + 1) { c with keep := c.keep ++ [last] } := by
  refine ⟨h.shaped, h.variableCount, h.rowCount, by simp [h.keep], ?_⟩
  intro r hr
  rcases getElem?_concat h.keep hr with ⟨-, hr⟩ | ⟨rfl, hl⟩
  · exact h.kept r hr
  · exact hk hl.symm

theorem Fits.looked (h : c.Fits s n) (hn : n < s.rowCount) {next : Cleanup Rat}
    (hl : c.Looked n next) : next.Fits s (n + 1) := by
  cases hl with
  | kept hb => exact h.concat fun _ => hb
  | dropped => exact h.concat fun e => absurd e (by decide)
  | exchanged _ hj _ _ _ _ _ e =>
    refine ⟨e.shaped, e.variableCount_eq.trans h.variableCount, e.rowCount.trans h.rowCount,
      by simp [h.keep], ?_⟩
    intro r hr
    rw [e.variableCount_eq]
    rcases getElem?_concat h.keep hr with ⟨hlt, hr⟩ | ⟨rfl, -⟩
    · rw [e.basic r (h.rowCount ▸ hlt.trans hn), if_neg hlt.ne]
      exact h.kept r hr
    · rw [e.basic r (h.rowCount ▸ hn), if_pos rfl]
      exact hj

/-! ## Validity -/

/-- One more row is looked at. -/
theorem look_ok (hz : s.Clear) (hn : n < s.rowCount) (h : c.Valid s b n) :
    ∃ next, c.look n = .ok next ∧ next.Valid s b (n + 1) := by
  have hn' : n < c.state.rowCount := h.rowCount ▸ hn
  obtain ⟨next, hnext, looked⟩ := look_looked h.solved.shaped hn'
  refine ⟨next, hnext, ?_⟩
  cases looked with
  | kept hb => exact h.concat (fun _ => h.variableCount ▸ hb) fun e => absurd e (by decide)
  | dropped hb hv =>
    exact h.concat (fun e => absurd e (by decide)) fun _ =>
      ⟨h.variableCount ▸ hb, vacant_of_unmarked h.solved hn' hb hv⟩
  | exchanged hb hj hu _ hd _ hdir e => exact h.exchange hz e hn' hj hu hb hd hdir _

theorem looks_ok (hz : s.Clear) (h : s.Solved b) (hn : n ≤ s.rowCount) :
    ∃ c, (List.range n).foldlM look ⟨{ s with phase := .two }, [], []⟩ = .ok c ∧
      c.Valid s b n := by
  have start : Valid s b 0 ⟨{ s with phase := .two }, [], []⟩ := {
    columns := rfl
    costs := rfl
    phase := rfl
    rowCount := rfl
    values_length := rfl
    value := fun _ => rfl
    solved := ⟨⟨h.shaped.columns, h.shaped.costs, h.shaped.inverses, h.shaped.basics,
      h.shaped.inBasis, h.shaped.values⟩, h.inverse, h.marked, h.own, h.basic_value, h.other_value⟩
    keep := rfl
    kept := fun r hr => by simp at hr
    dropped := fun r hr => by simp at hr }
  obtain ⟨c, hc, hv⟩ := foldlM_ok look (List.range n) _ (fun i c => c.Valid s b i) start
    fun i hi c hc => by
      rw [List.getElem_range]
      exact look_ok hz ((List.length_range (n := n) ▸ hi).trans_le hn) hc
  rw [List.length_range] at hv
  exact ⟨c, hc, hv⟩

end Cleanup
end LinearProgramming.Simplex.State
