import LinearProgramming.Proofs.Simplex.Consistency
import LinearProgramming.Proofs.Simplex.Progress
import Mathlib.Data.Set.Card

/-!
# Strides of the engine

An exchange by the ratio test changes what its phase minimizes by the step of the entering variable
times its reduced cost. The values are determined by the basis, so that no basis is left twice by a
positive step.

* `State.phaseValue`: what the phase minimizes, in terms of the program.
* `LoopPivot`: an exchange of the loop, with what the engine computes for it; `LoopPivot.progress`
  says how much it brings.
* `value_eq_of_basis`: the values are those of the set of basic variables.
* `strides_encard_le`: the exchanges of a phase with a positive step, counted.
* `exists_stall`: an engine that never stops takes no step from some turn on.
* `loop_progresses`: all together.
-/

namespace LinearProgramming.Simplex

open Finset

namespace State

variable {p : Program Rat} {kept : List Nat} {s t : State Rat}

/-! ## What a phase minimizes -/

/-- The sum of the artificial variables in phase one, and the objective in phase two. -/
def phaseValue (p : Program Rat) (s : State Rat) : Rat :=
  match s.phase with
  | .one => s.artificialSum
  | .two => p.objective (s.values.take p.variableCount)

/-- What vanishes out of the basis adds up over the basis, artificial variables included. -/
theorem Solved.sum_values {b : Nat → Rat} (h : s.Solved b) {f : Nat → Rat}
    (hf : ∀ v, (∀ i < s.rowCount, (s.row i).basic ≠ v) → f v = 0) :
    ∑ v ∈ range s.values.length, f v = ∑ i ∈ range s.rowCount, f (s.row i).basic := by
  rw [Finset.sum_congr rfl fun v _ => h.eq_sum_basic (hf v), Finset.sum_comm]
  apply sum_range_congr
  intro i hi
  rw [Finset.sum_ite_eq, if_pos (Finset.mem_range.mpr (h.shaped.basic_lt hi))]

/-- In phase one the basis costs as much as the artificial variables add up to. -/
theorem Solved.basisCost_eq_artificialSum {b : Nat → Rat} (h : s.Solved b) (hp : s.Priced)
    (hphase : s.phase = .one) : s.basisCost = s.artificialSum := by
  let f (v : Nat) : Rat := if v < s.variableCount then 0 else s.value v
  have hf : ∀ v, (∀ i < s.rowCount, (s.row i).basic ≠ v) → f v = 0 := by
    intro v hv
    simp only [f, h.other_value v hv, ite_self]
  have hcost : s.basisCost = ∑ i ∈ range s.rowCount, f (s.row i).basic := by
    apply sum_range_congr
    intro i hi
    rw [hp i hi, phaseCost, hphase]
    simp only [f]
    split
    · exact zero_mul _
    · exact one_mul _
  rw [hcost, ← h.sum_values hf, artificialSum_eq]
  obtain ⟨k, hk⟩ := Nat.exists_eq_add_of_le h.shaped.values
  rw [hk, Finset.sum_range_add, Finset.sum_eq_zero fun v hv => if_pos (Finset.mem_range.mp hv),
    zero_add, Nat.add_sub_cancel_left]
  exact sum_range_congr fun v _ => if_neg (by omega)

theorem Invariant.phaseValue_eq (h : s.Invariant p kept) : s.phaseValue p = s.basisCost := by
  unfold phaseValue
  cases hp : s.phase with
  | one => exact (h.solved.basisCost_eq_artificialSum h.priced hp).symm
  | two =>
    have hcoord : ∀ j < p.variableCount, coord (s.values.take p.variableCount) j = s.value j :=
      fun j hj => s.coord_take hj
    rw [h.solved.basisCost_eq h.priced (h.clear hp),
      h.phaseObjective_eq hp (take_length h) hcoord]

/-! ## Exchanges of the loop -/

/-- A turn that exchanges variables, with what the engine computes for it: the variable that enters,
its reduced cost, the row of the variable that leaves, and the step. -/
structure LoopPivot (s t : State Rat) (j i : Nat) (reduced step : Rat) : Prop where
  entering : s.entering? = .ok (some j)
  reducedCost : (do s.reducedCost (← s.prices) j) = .ok reduced
  leaving : (do s.leaving? (← s.direction j)) = .ok (some i)
  step : (do
    let r ← fetch s.rows i
    let d ← s.direction j
    divide (← fetch s.values r.basic) (← fetch d i)) = .ok step
  advance : ∃ events, s.advance = .ok (.moved t events)

/-- What an exchange brings: the entering variable takes the step, and what the phase minimizes
changes by the reduced cost times the step, which is never more. -/
structure Progress (p : Program Rat) (s t : State Rat) (j : Nat) (reduced step : Rat) : Prop where
  phase : t.phase = s.phase
  negative : reduced < 0
  step_nonneg : 0 ≤ step
  value : t.value j = step
  change : t.phaseValue p - s.phaseValue p = reduced * step
  le : t.phaseValue p ≤ s.phaseValue p
  lt : 0 < step → t.phaseValue p < s.phaseValue p

theorem Shaped.reducedCost_prices (h : s.Shaped) {j : Nat} (hj : j < s.variableCount) :
    (do s.reducedCost (← s.prices) j) = .ok (s.reduced j) := by
  obtain ⟨prices, hprices, hl, hc⟩ := h.prices_eq_ok
  rw [bind_eq hprices]
  exact h.reducedCost_eq_ok hl hc hj

theorem Shaped.step_eq_ok (h : s.Shaped) {i j : Nat} {d : List Rat} (hd : s.direction j = .ok d)
    (hl : d.length = s.rowCount) (hi : s.Leaves d i) : (do
      let r ← fetch s.rows i
      let d ← s.direction j
      divide (← fetch s.values r.basic) (← fetch d i)) = .ok (s.ratio d i) := by
  have hdi : i < d.length := hl ▸ hi.1
  rw [bind_eq (fetch_row hi.1), bind_eq hd, bind_eq (fetch_value (h.basic_lt hi.1)),
    bind_eq (fetch_eq_ok hdi), ← coord_of_lt hdi]
  exact divide_eq_ok _ hi.2.1.ne'

/-- The engine computes what it needs for every turn in which a variable enters. -/
theorem Shaped.exists_loopPivot (h : s.Shaped) {j : Nat} {events : List Event}
    (he : s.entering? = .ok (some j)) (ha : s.advance = .ok (.moved t events)) :
    ∃ i reduced step, LoopPivot s t j i reduced step := by
  obtain ⟨d, hd, hj, hdirects, ⟨-, -, hstop⟩ | ⟨i, u, later, hleaving, hi, -, hu⟩⟩ :=
    advance_of_entering h he
  · cases hstop.symm.trans ha
  · exact ⟨i, _, _, he, h.reducedCost_prices hj.lt, (bind_eq hd _).trans hleaving,
      h.step_eq_ok hd hdirects.length hi, events, ha⟩

/-- What the engine computes is what the exchange is made of. -/
theorem LoopPivot.exchange {j i : Nat} {reduced step : Rat} (g : LoopPivot s t j i reduced step)
    (h : s.Shaped) : ∃ d, s.Enters j ∧ s.Directs j d ∧ s.Leaves d i ∧ Exchange s t i j d ∧
      reduced = s.reduced j ∧ step = s.ratio d i := by
  obtain ⟨events, ha⟩ := g.advance
  obtain ⟨d, hd, hj, hdirects, ⟨-, -, hstop⟩ | ⟨r, u, later, hleaving, hr, e, hu⟩⟩ :=
    advance_of_entering h g.entering
  · cases hstop.symm.trans ha
  · cases hu.symm.trans ha
    have hrow : (Except.ok (some r) : Except Fault _) = .ok (some i) :=
      hleaving.symm.trans ((bind_eq hd _).symm.trans g.leaving)
    obtain rfl := Option.some.inj (Except.ok.inj hrow)
    exact ⟨d, hj, hdirects, hr, e,
      Except.ok.inj (g.reducedCost.symm.trans (h.reducedCost_prices hj.lt)),
      Except.ok.inj (g.step.symm.trans (h.step_eq_ok hd hdirects.length hr))⟩

theorem LoopPivot.progress {j i : Nat} {reduced step : Rat} (g : LoopPivot s t j i reduced step)
    (h : s.Invariant p kept) : Progress p s t j reduced step := by
  obtain ⟨d, hj, hd, hi, e, rfl, rfl⟩ := g.exchange h.solved.shaped
  have ht := h.exchange hj hd hi e
  have hnonneg := hi.ratio_nonneg h.nonneg
  have hchange : t.phaseValue p - s.phaseValue p = s.reduced j * s.ratio d i := by
    rw [ht.phaseValue_eq, h.phaseValue_eq, e.basisCost_eq h.solved hj hd hi]
    ring
  have hle := mul_nonpos_of_nonpos_of_nonneg hj.negative.le hnonneg
  refine ⟨e.phase, hj.negative, hnonneg, by rw [e.value, if_pos rfl], hchange, by linarith, ?_⟩
  intro hpos
  have hlt := mul_neg_of_neg_of_pos hj.negative hpos
  linarith

/-! ## Values of a basis -/

/-- A basic column is expressed by its own row alone. -/
theorem Solved.express_basic {b : Nat → Rat} (h : s.Solved b) {i v : Nat} (hi : i < s.rowCount)
    (hv : v ∈ s.basis) :
    s.express (s.fullColumn v) i = if v = (s.row i).basic then 1 else 0 := by
  obtain ⟨q, hq, rfl⟩ := mem_basis.mp hv
  rw [h.inverse i hi q hq]
  have hiff : i = q ↔ (s.row q).basic = (s.row i).basic :=
    ⟨fun e => by rw [e], fun e => h.basic_injective hi hq e.symm⟩
  simp only [hiff]

/-- The values are those of the set of basic variables, whatever the rows they are basic in. -/
theorem value_eq_of_basis (hs : s.Invariant p kept) (ht : t.Invariant p kept)
    (hb : ∀ v, v ∈ s.basis ↔ v ∈ t.basis) (v : Nat) : t.value v = s.value v := by
  have hm : t.rowCount = s.rowCount := ht.rowCount.trans hs.rowCount.symm
  by_cases hv : v ∈ s.basis
  · obtain ⟨i, hi, rfl⟩ := mem_basis.mp hv
    have hrhs : ∀ k < s.rowCount, p.rhs (kept.getD k 0) = ∑ r ∈ range t.rowCount,
        t.value (t.row r).basic * s.fullColumn (t.row r).basic k := by
      intro k hk
      rw [← ht.solved.rows_hold (hm ▸ hk)]
      exact sum_range_congr fun r _ => by rw [Alike.fullColumn_eq hs ht, mul_comm]
    rw [hs.solved.basic_value i hi, s.express_congr hrhs, express_sum,
      ht.solved.eq_sum_basic (f := t.value) (ht.solved.other_value (s.row i).basic)]
    apply sum_range_congr
    intro r hr
    have hmem : (t.row r).basic ∈ s.basis := (hb _).mpr (mem_basis.mpr ⟨r, hr, rfl⟩)
    rw [express_mul, hs.solved.express_basic hi hmem, mul_ite, mul_one, mul_zero]
    split
    · next e => rw [e]
    · rfl
  · rw [hs.solved.other_value v fun i hi e => hv (mem_basis.mpr ⟨i, hi, e⟩),
      ht.solved.other_value v fun i hi e => hv ((hb v).mpr (mem_basis.mpr ⟨i, hi, e⟩))]

/-- The cost of the basis, summed over the set of basic variables. -/
theorem Invariant.basisCost_eq_sum (h : s.Invariant p kept) : s.basisCost =
    ∑ v ∈ s.basis.toFinset, (if v < s.variableCount then s.phaseCost v else 1) * s.value v := by
  have himage : s.basis.toFinset = (range s.rowCount).image fun i => (s.row i).basic := by
    ext v
    simp [mem_basis]
  rw [himage, Finset.sum_image]
  · exact sum_range_congr fun i hi => by rw [h.priced i hi]
  · intro i hi r hr e
    exact h.solved.basic_injective (Finset.mem_range.mp hi) (Finset.mem_range.mp hr) e

theorem phaseValue_eq_of_basis (hs : s.Invariant p kept) (ht : t.Invariant p kept)
    (hphase : t.phase = s.phase) (hb : t.basis.toFinset = s.basis.toFinset) :
    t.phaseValue p = s.phaseValue p := by
  have hmem : ∀ v, v ∈ s.basis ↔ v ∈ t.basis := by
    intro v
    rw [← List.mem_toFinset, ← hb, List.mem_toFinset]
  rw [ht.phaseValue_eq, hs.phaseValue_eq, ht.basisCost_eq_sum, hs.basisCost_eq_sum, hb]
  apply Finset.sum_congr rfl
  intro v _
  simp only [value_eq_of_basis hs ht hmem, ht.variableCount, hs.variableCount, phaseCost, hphase,
    ht.costs, hs.costs]

/-! ## Strides -/

/-- The turns of a phase that are exchanges with a positive step. -/
def strides (start : State Rat) (phase : Phase) : Set Nat :=
  {k | ∃ s t j i reduced step, Reaches k start s ∧ s.phase = phase ∧
    LoopPivot s t j i reduced step ∧ 0 < step}

/-- The basic variables after a number of turns. -/
def basisSet (start : State Rat) (k : Nat) : Finset Nat :=
  (start.stateAfter k).elim ∅ fun s => s.basis.toFinset

theorem basisSet_eq {start : State Rat} {k : Nat} (h : Reaches k start s) :
    basisSet start k = s.basis.toFinset := by
  rw [basisSet, reaches_iff_stateAfter.mp h]
  rfl

/-- States of one phase have the same rows. -/
theorem Reaches.common_invariant {start : State Rat} {k n : Nat} {rows : List Nat}
    (hk : Reaches k start s) (hn : Reaches n start t) (h : start.Invariant p rows)
    (hp : t.phase = s.phase) : ∃ kept, s.Invariant p kept ∧ t.Invariant p kept := by
  rcases Nat.le_total k n with hle | hle
  · obtain ⟨u, hu, hrest⟩ := hn.until hle
    obtain rfl := hu.unique hk
    obtain ⟨kept, hkept⟩ := hu.exists_invariant h
    exact ⟨kept, hkept, hrest.invariant hkept hp⟩
  · obtain ⟨u, hu, hrest⟩ := hk.until hle
    obtain rfl := hu.unique hn
    obtain ⟨kept, hkept⟩ := hu.exists_invariant h
    exact ⟨kept, hrest.invariant hkept hp.symm, hkept⟩

/-- The basis is a set of as many variables as there are rows. -/
theorem Invariant.basis_mem (h : s.Invariant p kept) : s.basis.toFinset ∈
    (range (p.variableCount + s.rowCount)).powersetCard s.rowCount := by
  refine Finset.mem_powersetCard.mpr ⟨fun v hv => ?_, ?_⟩
  · obtain ⟨i, hi, rfl⟩ := mem_basis.mp (List.mem_toFinset.mp hv)
    by_cases hb : (s.row i).basic < s.variableCount
    · exact Finset.mem_range.mpr (by rw [h.variableCount] at hb; omega)
    · rw [h.solved.own i hi (Nat.le_of_not_lt hb), h.variableCount, Finset.mem_range]
      omega
  · rw [List.toFinset_card_of_nodup h.basis_nodup, basis, List.length_map]
    rfl

/-- After a positive step the phase never comes back to the basis. -/
theorem LoopPivot.basis_ne {j i n : Nat} {reduced step : Rat} {u : State Rat}
    (g : LoopPivot s t j i reduced step) (hpos : 0 < step) (h : s.Invariant p kept)
    (r : Reaches n t u) (hu : u.phase = s.phase) : u.basis.toFinset ≠ s.basis.toFinset := by
  have hprogress := g.progress h
  obtain ⟨d, hj, hd, hi, e, -, -⟩ := g.exchange h.solved.shaped
  have ht := h.exchange hj hd hi e
  have hphase : u.phase = t.phase := hu.trans hprogress.phase.symm
  have huinv := r.invariant ht hphase
  have hless : u.phaseValue p < s.phaseValue p := by
    calc u.phaseValue p = u.basisCost := huinv.phaseValue_eq
      _ ≤ t.basisCost := r.basisCost_le ht hphase
      _ = t.phaseValue p := ht.phaseValue_eq.symm
      _ < s.phaseValue p := hprogress.lt hpos
  intro hb
  exact hless.ne (phaseValue_eq_of_basis h huinv hu hb)

/-- Positive steps of a phase start from different sets of basic variables. -/
theorem basisSet_injOn {start : State Rat} {rows : List Nat} (h : start.Invariant p rows)
    (phase : Phase) : Set.InjOn (basisSet start) (strides start phase) := by
  have hlt : ∀ k ∈ strides start phase, ∀ l ∈ strides start phase, k < l →
      basisSet start l ≠ basisSet start k := by
    rintro k ⟨s, t, j, i, reduced, step, hs, hp, g, hpos⟩ l ⟨u, -, -, -, -, -, hu, hup, -, -⟩ hkl
    obtain ⟨kept, hkept⟩ := hs.exists_invariant h
    have hnext : Reaches (k + 1) start t := reaches_add.mpr ⟨s, hs, reaches_one.mpr g.advance⟩
    obtain ⟨w, hw, hrest⟩ := hu.until (Nat.succ_le_of_lt hkl)
    obtain rfl := hw.unique hnext
    rw [basisSet_eq hu, basisSet_eq hs]
    exact g.basis_ne hpos hkept hrest (hup.trans hp.symm)
  intro k hk l hl heq
  rcases Nat.lt_trichotomy k l with hkl | rfl | hlk
  · exact absurd heq.symm (hlt k hk l hl hkl)
  · rfl
  · exact absurd heq (hlt l hl k hk hlk)

theorem strides_encard_le {start : State Rat} {rows : List Nat} (h : start.Invariant p rows)
    {n : Nat} (hs : Reaches n start s) : (strides start s.phase).encard ≤
      (p.variableCount + s.rowCount).choose s.rowCount := by
  have hmaps : Set.MapsTo (basisSet start) (strides start s.phase)
      ((range (p.variableCount + s.rowCount)).powersetCard s.rowCount) := by
    rintro k ⟨u, -, -, -, -, -, hu, hp, -, -⟩
    obtain ⟨kept, hinv, huinv⟩ := hs.common_invariant hu h hp
    rw [basisSet_eq hu, hinv.rowCount, ← huinv.rowCount]
    exact huinv.basis_mem
  have hle := Set.encard_le_encard_of_injOn hmaps (basisSet_injOn h s.phase)
  rwa [Set.encard_coe_eq_coe_finsetCard, Finset.card_powersetCard, Finset.card_range] at hle

/-- In terms of the program, whose rows are at least as many as those of its states. -/
theorem strides_encard_le_choose {start : State Rat} {rows : List Nat}
    (h : start.Invariant p rows) (phase : Phase) :
    (strides start phase).encard ≤ (p.variableCount + p.rowCount).choose p.rowCount := by
  rcases (strides start phase).eq_empty_or_nonempty with hempty | ⟨k, s, -, -, -, -, -, hs, rfl, -⟩
  · rw [hempty, Set.encard_empty]
    exact zero_le
  · obtain ⟨kept, hinv⟩ := hs.exists_invariant h
    have hbases : (p.variableCount + s.rowCount).choose s.rowCount ≤
        (p.variableCount + p.rowCount).choose p.rowCount := by
      rw [← Nat.choose_symm_add, ← Nat.choose_symm_add]
      exact Nat.choose_le_choose _ (Nat.add_le_add_left hinv.rowCount_le _)
    exact (strides_encard_le h hs).trans (Nat.cast_le.mpr hbases)

/-! ## Runs without an end -/

/-- A turn that does not stop is an exchange, or the end of phase one. -/
theorem Invariant.loopPivot_or_end (h : s.Invariant p kept) {events : List Event}
    (ha : s.advance = .ok (.moved t events)) :
    (∃ j i reduced step, LoopPivot s t j i reduced step) ∨
      s.phase = .one ∧ s.entering? = .ok none ∧ t.phase = .two := by
  obtain ⟨j?, he⟩ : ∃ j?, s.entering? = .ok j? := ⟨_, h.solved.shaped.entering?_eq_ok⟩
  cases j? with
  | some j => exact .inl ⟨j, h.solved.shaped.exists_loopPivot he ha⟩
  | none =>
    obtain ⟨turn, hturn, hturned⟩ := advance_ok h.solved h.nonneg
    cases ha.symm.trans hturn
    cases hturned with
    | reduced phase _ _ reduction => exact .inr ⟨phase, he, reduction.phase⟩
    | pivoted enters =>
      have hsettled := h.solved.shaped.entering?_eq_none he enters.lt enters.unmarked
      exact absurd enters.negative (not_lt.mpr hsettled)

/-- A run that is long enough stays in one phase. -/
theorem exists_last_phase {start : State Rat} {rows : List Nat} (h : start.Invariant p rows) :
    ∃ n phase, ∀ k ≥ n, ∀ s, Reaches k start s → s.phase = phase := by
  by_cases htwo : ∃ n t, Reaches n start t ∧ t.phase = .two
  · obtain ⟨n, t, ht, hp⟩ := htwo
    obtain ⟨kept, hinv⟩ := ht.exists_invariant h
    refine ⟨n, .two, fun k hk s hs => ?_⟩
    obtain ⟨u, hu, hrest⟩ := hs.until hk
    obtain rfl := hu.unique ht
    exact hrest.phase_two hinv hp
  · refine ⟨0, .one, fun k _ s hs => ?_⟩
    cases hp : s.phase with
    | one => rfl
    | two => exact absurd ⟨k, s, hs, hp⟩ htwo

/-- If the engine never stops, then from some turn on it exchanges variables without a step. -/
theorem exists_stall {start : State Rat} {rows : List Nat} (h : start.Invariant p rows)
    (hforever : ∀ n, ∃ t, Reaches n start t) :
    ∃ n phase, ∀ k ≥ n, ∃ s t j i reduced, Reaches k start s ∧ s.phase = phase ∧
      LoopPivot s t j i reduced 0 := by
  obtain ⟨n, phase, hphase⟩ := exists_last_phase h
  obtain ⟨last, hlast⟩ :=
    (Set.finite_of_encard_le_coe (strides_encard_le_choose h phase)).bddAbove
  refine ⟨max n (last + 1), phase, fun k hk => ?_⟩
  have hn : n ≤ k := (le_max_left ..).trans hk
  obtain ⟨t, ht⟩ := hforever (k + 1)
  obtain ⟨s, hs, hnext⟩ := reaches_add.mp ht
  obtain ⟨events, ha⟩ := reaches_one.mp hnext
  have hsp := hphase k hn s hs
  have htp := hphase (k + 1) (Nat.le_succ_of_le hn) t ht
  obtain ⟨kept, hinv⟩ := hs.exists_invariant h
  rcases hinv.loopPivot_or_end ha with ⟨j, i, reduced, step, g⟩ | ⟨hone, -, htwo⟩
  · -- the last positive step of the phase is over
    have hstep : ¬ 0 < step := by
      intro hpos
      have hle : k ≤ last := hlast ⟨s, t, j, i, reduced, step, hs, hsp, g, hpos⟩
      have hlt : last + 1 ≤ k := (le_max_right ..).trans hk
      omega
    obtain rfl := le_antisymm (le_of_not_gt hstep) (g.progress hinv).step_nonneg
    exact ⟨s, t, j, i, reduced, hs, hsp, g⟩
  · cases (hone.symm.trans (hsp.trans htp.symm)).trans htwo

end State

/-! ## Progress -/

open State

/-- Every turn that does not stop is an exchange or the end of phase one. By an exchange, what the
phase minimizes changes by the reduced cost times the step, and never grows. The exchanges of a
phase with a positive step are at most as many as there are sets of as many columns as there are
rows. An engine that never stops exchanges variables without a step in one phase, from some turn
on. -/
theorem loop_progresses {p : Program Rat} (hs : p.Stored) (hc : p.isCanonical = true)
    {start : State Rat} (hstart : State.start p = .ok start) :
    (∀ n s t events, Reaches n start s → s.advance = .ok (.moved t events) →
      (∃ j i reduced step, LoopPivot s t j i reduced step) ∨
        s.phase = .one ∧ s.entering? = .ok none ∧ t.phase = .two) ∧
    (∀ n s t j i reduced step, Reaches n start s → LoopPivot s t j i reduced step →
      Progress p s t j reduced step) ∧
    (∀ n s, Reaches n start s → (strides start s.phase).encard ≤
      (p.variableCount + s.rowCount).choose s.rowCount) ∧
    (∀ phase, (strides start phase).encard ≤
      (p.variableCount + p.rowCount).choose p.rowCount) ∧
    ((∀ limit, solveCanonical limit p = .error .stepLimit) →
      ∃ n phase, ∀ k ≥ n, ∃ s t j i reduced, Reaches k start s ∧ s.phase = phase ∧
        LoopPivot s t j i reduced 0) := by
  obtain rfl := Except.ok.inj ((start_eq hs).symm.trans hstart)
  have hinv := initial_invariant (lower_nonneg hc)
  refine ⟨?_, ?_, fun n s hr => strides_encard_le hinv hr, strides_encard_le_choose hinv, ?_⟩
  · intro n s t events hr ha
    obtain ⟨kept, hkept⟩ := hr.exists_invariant hinv
    exact hkept.loopPivot_or_end ha
  · intro n s t j i reduced step hr g
    obtain ⟨kept, hkept⟩ := hr.exists_invariant hinv
    exact g.progress hkept
  · intro hlimit
    exact exists_stall hinv fun n => (stepLimit_iff hs n).mp (hlimit n)

/-- The first exchange of one program brings the artificial variables from six to zero; another
program goes round for ever, and so comes to a stall. -/
theorem stutter_strides_and_carousel_stalls :
    (stutter.Stored ∧ stutter.isCanonical = true ∧ ∃ start t,
      State.start stutter = .ok start ∧ LoopPivot start t 0 0 (-3) 2 ∧
        start.artificialSum = 6 ∧ t.artificialSum = 0 ∧ Progress stutter start t 0 (-3) 2 ∧
          0 ∈ strides start .one ∧ (strides start .one).encard ≤ Nat.choose 4 2) ∧
    (carousel.Stored ∧ carousel.isCanonical = true ∧ ∃ start,
      State.start carousel = .ok start ∧
        (∀ limit, solveCanonical limit carousel = .error .stepLimit) ∧
          ∃ n phase, ∀ k ≥ n, ∃ s t j i reduced, Reaches k start s ∧ s.phase = phase ∧
            LoopPivot s t j i reduced 0) := by
  constructor
  · have hs : stutter.Stored := by decide
    have hc : stutter.isCanonical = true := by decide
    let t : State Rat := ⟨[[1, 2], [1, 2]], [1, 3], [⟨0, 0, [1, 0]⟩, ⟨3, 1, [-2, 1]⟩],
      [true, false, false, true], [2, 0, 0, 0], .one, 1⟩
    have hfirst : (initial stutter).stateAfter 1 = some t := by decide +kernel
    have g : LoopPivot (initial stutter) t 0 0 (-3) 2 :=
      ⟨by decide +kernel, by decide +kernel, by decide +kernel, by decide +kernel,
        reaches_one.mp (reaches_iff_stateAfter.mpr hfirst)⟩
    obtain ⟨-, hprogress, -, hcount, -⟩ := loop_progresses hs hc (start_eq hs)
    have hzero : Reaches 0 (initial stutter) (initial stutter) := reaches_zero.mpr rfl
    exact ⟨hs, hc, _, t, start_eq hs, g, by decide +kernel, by decide +kernel,
      hprogress 0 _ t 0 0 (-3) 2 hzero g,
      ⟨_, t, 0, 0, -3, 2, hzero, rfl, g, by decide⟩, hcount .one⟩
  · have hs : carousel.Stored := by decide
    have hc : carousel.isCanonical = true := by decide
    have hlimit := never_returns_of_cycles hs hc carousel_cycles
    obtain ⟨-, -, -, -, hstall⟩ := loop_progresses hs hc (start_eq hs)
    exact ⟨hs, hc, _, start_eq hs, hlimit, hstall hlimit⟩

end LinearProgramming.Simplex
