import LinearProgramming.Proofs.Vector
import LinearProgramming.Simplex.Run

/-!
# What the operations of the engine do

In a state whose vectors fit together no operation goes wrong, and each one is a formula in the
coordinates of the state:

* `reducedCost_eq_ok`, `entering?_eq_ok`: the reduced costs, and the first one below zero;
* `direction_eq_ok`: a column expressed in the basis;
* `leaving?_ok`: the first row with the least ratio (`Leaves`).
-/

namespace LinearProgramming.Simplex.State

open Finset

/-! ## Reading a state -/

/-- A row of the basis. -/
def row (s : State Rat) (i : Nat) : BasisRow Rat := s.rows.getD i ⟨0, 0, []⟩

/-- The column of a variable of the program. -/
def column (s : State Rat) (j : Nat) : List Rat := s.columns.getD j []

/-- The current value of a variable, artificials included. -/
def value (s : State Rat) (v : Nat) : Rat := coord s.values v

/-- The variable is marked as basic. -/
def marked (s : State Rat) (v : Nat) : Bool := s.inBasis.getD v false

/-- What a variable of the program costs in the current phase. -/
def phaseCost (s : State Rat) (j : Nat) : Rat :=
  match s.phase with
  | .one => 0
  | .two => coord s.costs j

/-- The price of a row. -/
def price (s : State Rat) (k : Nat) : Rat :=
  ∑ i ∈ range s.rowCount, (s.row i).cost * coord (s.row i).inverse k

/-- What a unit of a variable changes in the objective of the phase. -/
def reduced (s : State Rat) (j : Nat) : Rat :=
  s.phaseCost j - ∑ k ∈ range s.rowCount, s.price k * coord (s.column j) k

/-- A right-hand side expressed in the basis: what it takes of the basic variable of each row. -/
def express (s : State Rat) (x : Nat → Rat) (i : Nat) : Rat :=
  ∑ k ∈ range s.rowCount, coord (s.row i).inverse k * x k

/-- All vectors of the state fit together. -/
structure Shaped (s : State Rat) : Prop where
  columns : ∀ c ∈ s.columns, c.length = s.rowCount
  costs : s.costs.length = s.variableCount
  inverses : ∀ r ∈ s.rows, r.inverse.length = s.rowCount
  basics : ∀ r ∈ s.rows, r.basic < s.values.length
  inBasis : s.inBasis.length = s.values.length
  values : s.variableCount ≤ s.values.length

theorem row_eq {s : State Rat} {i : Nat} (h : i < s.rows.length) : s.row i = s.rows[i] := by
  simp [row, h]

theorem column_eq {s : State Rat} {j : Nat} (h : j < s.columns.length) :
    s.column j = s.columns[j] := by
  simp [column, h]

theorem fetch_row {s : State Rat} {i : Nat} (h : i < s.rowCount) :
    fetch s.rows i = .ok (s.row i) := by
  rw [row_eq h]
  exact fetch_eq_ok h

theorem fetch_column {s : State Rat} {j : Nat} (h : j < s.variableCount) :
    fetch s.columns j = .ok (s.column j) := by
  rw [column_eq h]
  exact fetch_eq_ok h

theorem fetch_value {s : State Rat} {v : Nat} (h : v < s.values.length) :
    fetch s.values v = .ok (s.value v) := by
  rw [value, coord_of_lt h]
  exact fetch_eq_ok h

namespace Shaped

variable {s : State Rat}

theorem inverse_length (h : s.Shaped) {i : Nat} (hi : i < s.rowCount) :
    (s.row i).inverse.length = s.rowCount := by
  rw [row_eq hi]
  exact h.inverses _ (List.getElem_mem hi)

theorem column_length (h : s.Shaped) {j : Nat} (hj : j < s.variableCount) :
    (s.column j).length = s.rowCount := by
  rw [column_eq hj]
  exact h.columns _ (List.getElem_mem hj)

theorem basic_lt (h : s.Shaped) {i : Nat} (hi : i < s.rowCount) :
    (s.row i).basic < s.values.length := by
  rw [row_eq hi]
  exact h.basics _ (List.getElem_mem hi)

theorem fetch_inBasis (h : s.Shaped) {v : Nat} (hv : v < s.values.length) :
    fetch s.inBasis v = .ok (s.marked v) := by
  have hl := h.inBasis ▸ hv
  rw [fetch_eq_ok hl]
  simp [marked, hl]

/-! ## The entering variable -/

theorem prices_eq_ok (h : s.Shaped) :
    ∃ prices, s.prices = .ok prices ∧ prices.length = s.rowCount ∧
      ∀ k < s.rowCount, coord prices k = s.price k := by
  obtain ⟨prices, hp, hl, hc⟩ := foldlM_ok
    (fun sum r => addMultiple sum r.cost r.inverse) s.rows (List.replicate s.rowCount (0 : Rat))
    (fun i sum => sum.length = s.rowCount ∧ ∀ k < s.rowCount,
      coord sum k = ∑ r ∈ range i, (s.row r).cost * coord (s.row r).inverse k)
    ⟨List.length_replicate, fun k hk => by simp [coord, hk]⟩
    fun i hi sum ⟨hl, hc⟩ => by
      have hr := h.inverses _ (List.getElem_mem hi)
      refine ⟨_, addMultiple_eq_ok _ (hl.trans hr.symm), by simp [hl, hr], ?_⟩
      intro k hk
      rw [coord_zipWith _ _ _ (hl ▸ hk) (hr ▸ hk), Finset.sum_range_succ, ← hc k hk,
        ← row_eq hi, ← coord_of_lt (hl ▸ hk)]
  exact ⟨prices, hp, hl, hc⟩

theorem reducedCost_eq_ok (h : s.Shaped) {prices : List Rat} (hl : prices.length = s.rowCount)
    (hp : ∀ k < s.rowCount, coord prices k = s.price k) {j : Nat} (hj : j < s.variableCount) :
    s.reducedCost prices j = .ok (s.reduced j) := by
  have hsum : ∑ k ∈ range prices.length, coord prices k * coord (s.column j) k =
      ∑ k ∈ range s.rowCount, s.price k * coord (s.column j) k := by
    rw [hl]
    exact sum_range_congr fun k hk => by rw [hp k hk]
  have hfold (z : Rat) := foldChecked_sub_eq_ok z (hl.trans (h.column_length hj).symm)
  have hcost := h.costs ▸ hj
  unfold reducedCost reduced phaseCost
  rw [fetch_column hj, ← hsum]
  cases s.phase
  · exact hfold 0
  · rw [fetch_eq_ok hcost, ← coord_of_lt hcost]
    exact hfold _

theorem firstNonbasic_eq_ok (h : s.Shaped) {condition : Nat → Except Fault Bool} {f : Nat → Bool}
    (hf : ∀ j < s.variableCount, condition j = .ok (f j)) :
    s.firstNonbasic condition =
      .ok ((List.range s.variableCount).find? fun j => !s.marked j && f j) := by
  apply findM?_eq_ok
  intro j hj
  have hj := List.mem_range.mp hj
  rw [h.fetch_inBasis (Nat.lt_of_lt_of_le hj h.values)]
  cases s.marked j
  · exact hf j hj
  · rfl

theorem entering?_eq_ok (h : s.Shaped) :
    s.entering? = .ok ((List.range s.variableCount).find? fun j =>
      !s.marked j && decide (s.reduced j < 0)) := by
  obtain ⟨prices, hp, hl, hc⟩ := h.prices_eq_ok
  unfold entering?
  rw [hp]
  apply h.firstNonbasic_eq_ok
  intro j hj
  rw [h.reducedCost_eq_ok hl hc hj]
  simp

/-- No variable enters when every reduced cost out of the basis is nonnegative. -/
theorem entering?_eq_none (h : s.Shaped) (he : s.entering? = .ok none) {j : Nat}
    (hj : j < s.variableCount) (hm : s.marked j = false) : 0 ≤ s.reduced j := by
  rw [h.entering?_eq_ok] at he
  have := List.find?_eq_none.mp (Except.ok.inj he) j (List.mem_range.mpr hj)
  simpa [hm] using this

/-- The variable that enters is the first out of the basis with a negative reduced cost. -/
theorem entering?_eq_some (h : s.Shaped) {j : Nat} (he : s.entering? = .ok (some j)) :
    j < s.variableCount ∧ s.marked j = false ∧ s.reduced j < 0 ∧
      ∀ i < j, s.marked i = false → 0 ≤ s.reduced i := by
  rw [h.entering?_eq_ok] at he
  obtain ⟨hj, hr, first⟩ := List.find?_range_eq_some.mp (Except.ok.inj he)
  simp only [Bool.and_eq_true, Bool.not_eq_true', decide_eq_true_eq] at hj
  refine ⟨List.mem_range.mp hr, hj.1, hj.2, ?_⟩
  intro i hi hm
  simpa [hm] using first i hi

/-! ## The leaving row -/

theorem direction_eq_ok (h : s.Shaped) {j : Nat} (hj : j < s.variableCount) :
    ∃ d, s.direction j = .ok d ∧ d.length = s.rowCount ∧
      ∀ i < s.rowCount, coord d i = s.express (coord (s.column j)) i := by
  have hc := h.column_length hj
  have hd : s.direction j = .ok (s.rows.map fun r =>
      ∑ k ∈ range s.rowCount, coord r.inverse k * coord (s.column j) k) := by
    unfold direction
    rw [fetch_column hj]
    apply mapM_eq_ok
    intro r hr
    have hi := h.inverses r hr
    rw [dot_eq_ok (hi.trans hc.symm), hi]
  refine ⟨_, hd, List.length_map .., ?_⟩
  intro i hi
  simp only [coord_map _ _ hi, express, row_eq hi]

end Shaped

/-- How far the entering variable may grow along a direction before the variable of a row is
zero. -/
def ratio (s : State Rat) (d : List Rat) (i : Nat) : Rat := s.value (s.row i).basic / coord d i

/-- The row is the first with the least ratio among rows with a positive entry. -/
def Leaves (s : State Rat) (d : List Rat) (i : Nat) : Prop :=
  i < s.rowCount ∧ 0 < coord d i ∧ ∀ r < s.rowCount, 0 < coord d r →
    s.ratio d i ≤ s.ratio d r ∧ (r < i → s.ratio d i < s.ratio d r)

/-- The best row among the first `n`. -/
def BestOf (s : State Rat) (d : List Rat) (n : Nat) : Option (Nat × Rat) → Prop
  | none => ∀ r < n, coord d r ≤ 0
  | some (i, least) => i < n ∧ 0 < coord d i ∧ least = s.ratio d i ∧ ∀ r < n, 0 < coord d r →
      s.ratio d i ≤ s.ratio d r ∧ (r < i → s.ratio d i < s.ratio d r)

section BestOf

variable {s : State Rat} {d : List Rat} {n i : Nat} {least : Rat}

/-- A row without a positive entry does not count. -/
theorem BestOf.skip {best : Option (Nat × Rat)} (hb : s.BestOf d n best) (hd : coord d n ≤ 0) :
    s.BestOf d (n + 1) best := by
  cases best with
  | none =>
    intro r hr
    rcases Nat.lt_succ_iff_lt_or_eq.mp hr with hr | rfl
    · exact hb r hr
    · exact hd
  | some b =>
    obtain ⟨i, least⟩ := b
    obtain ⟨hi, hpos, hl, hmin⟩ := hb
    refine ⟨by omega, hpos, hl, ?_⟩
    intro r hr hr0
    rcases Nat.lt_succ_iff_lt_or_eq.mp hr with hr | rfl
    · exact hmin r hr hr0
    · exact absurd hr0 (not_lt.mpr hd)

theorem BestOf.first (hb : s.BestOf d n none) (hd : 0 < coord d n) :
    s.BestOf d (n + 1) (some (n, s.ratio d n)) := by
  refine ⟨by omega, hd, rfl, ?_⟩
  intro r hr hpos
  rcases Nat.lt_succ_iff_lt_or_eq.mp hr with hr | rfl
  · exact absurd hpos (not_lt.mpr (hb r hr))
  · exact ⟨le_rfl, by omega⟩

theorem BestOf.replace (hb : s.BestOf d n (some (i, least))) (hd : 0 < coord d n)
    (hlt : s.ratio d n < least) : s.BestOf d (n + 1) (some (n, s.ratio d n)) := by
  obtain ⟨-, -, rfl, hmin⟩ := hb
  refine ⟨by omega, hd, rfl, ?_⟩
  intro r hr hpos
  rcases Nat.lt_succ_iff_lt_or_eq.mp hr with hr | rfl
  · have less := hlt.trans_le (hmin r hr hpos).1
    exact ⟨less.le, fun _ => less⟩
  · exact ⟨le_rfl, by omega⟩

/-- Between equal ratios the earlier row stays. -/
theorem BestOf.keep (hb : s.BestOf d n (some (i, least))) (hle : least ≤ s.ratio d n) :
    s.BestOf d (n + 1) (some (i, least)) := by
  obtain ⟨hi, hpos, rfl, hmin⟩ := hb
  refine ⟨by omega, hpos, rfl, ?_⟩
  intro r hr hr0
  rcases Nat.lt_succ_iff_lt_or_eq.mp hr with hr | rfl
  · exact hmin r hr hr0
  · exact ⟨hle, by omega⟩

end BestOf

theorem improve_ok {s : State Rat} (h : s.Shaped) {d : List Rat} {n : Nat} (hn : n < s.rowCount)
    {best : Option (Nat × Rat)} (hb : s.BestOf d n best) :
    ∃ next, s.improve best n (s.row n) (coord d n) = .ok next ∧ s.BestOf d (n + 1) next := by
  by_cases hd : 0 < coord d n
  · have hratio : s.improve best n (s.row n) (coord d n) = .ok (match best with
        | none => some (n, s.ratio d n)
        | some (_, least) => if Scalar.below (s.ratio d n) least then some (n, s.ratio d n)
          else best) := by
      unfold improve
      rw [below_eq, fetch_value (h.basic_lt hn)]
      simp only [hd, decide_true, Bool.not_true]
      change (divide (s.value (s.row n).basic) (coord d n) >>= _) = _
      rw [divide_eq_ok _ hd.ne']
      cases best <;> rfl
    refine ⟨_, hratio, ?_⟩
    cases best with
    | none => exact hb.first hd
    | some b =>
      obtain ⟨i, least⟩ := b
      by_cases hlt : s.ratio d n < least
      · simpa [hlt] using hb.replace hd hlt
      · simpa [hlt] using hb.keep (not_lt.mp hlt)
  · exact ⟨best, by simp [improve, hd, pure, Except.pure], hb.skip (not_lt.mp hd)⟩

/-- The ratio test finds the first row with the least ratio, or no row has a positive entry. -/
theorem leaving?_ok {s : State Rat} (h : s.Shaped) {d : List Rat} (hl : d.length = s.rowCount) :
    ∃ best, s.leaving? d = .ok best ∧
      (best = none → ∀ i < s.rowCount, coord d i ≤ 0) ∧ ∀ i, best = some i → s.Leaves d i := by
  have hz : zipChecked Prod.mk s.rows d = .ok (s.rows.zipWith Prod.mk d) :=
    zipChecked_eq_ok _ _ _ hl.symm
  have hlen : (s.rows.zipWith Prod.mk d).zipIdx.length = s.rowCount := by
    simp [hl, rowCount]
  obtain ⟨best, hb, hbest⟩ := foldlM_ok (fun best (t : (BasisRow Rat × Rat) × Nat) =>
      match t with | (p, i) => s.improve best i p.1 p.2) (s.rows.zipWith Prod.mk d).zipIdx none
    (fun n best => s.BestOf d n best) (fun r hr => absurd hr (Nat.not_lt_zero r))
    fun n hn best hbest => by
      have hn' : n < s.rowCount := hlen ▸ hn
      obtain ⟨next, hnext, hb⟩ := improve_ok h hn' hbest
      refine ⟨next, ?_, hb⟩
      rw [← hnext, row_eq hn', coord_of_lt (hl ▸ hn')]
      simp only [List.getElem_zipIdx, List.getElem_zipWith, Nat.zero_add]
      rfl
  rw [hlen] at hbest
  refine ⟨best.map (·.1), ?_, ?_, ?_⟩
  · simp only [leaving?, hz, bind, Except.bind]
    rw [hb]
    rfl
  · intro hn
    obtain rfl := Option.map_eq_none_iff.mp hn
    exact hbest
  · intro i hi
    obtain ⟨⟨_, least⟩, rfl, rfl⟩ := Option.map_eq_some_iff.mp hi
    obtain ⟨hi, hpos, -, hmin⟩ := hbest
    exact ⟨hi, hpos, hmin⟩

end LinearProgramming.Simplex.State
