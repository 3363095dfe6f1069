import LinearProgramming.Proofs.Simplex.Invariant

/-!
# Traces

* `Reaches`: the states after a number of turns, `stateAfter` the one that is computed;
* `Alike`: two states in one phase with one basis. The basis determines everything that a turn looks
  at (`Alike.express_eq`, `Alike.reduced_eq`), so such states make the same exchanges
  (`Alike.reaches`);
* `reaches_forever`: an engine that comes back to a basis never stops.
-/

namespace LinearProgramming.Simplex.State

open Finset

/-! ## Reached states -/

/-- The engine is in state `t` after `n` turns from `s`. -/
def Reaches (n : Nat) (s t : State Rat) : Prop := ∃ events, s.run n = .ok (.cut t events)

/-- The state after a number of turns, if the engine comes so far. -/
def stateAfter (s : State Rat) (n : Nat) : Option (State Rat) :=
  match s.run n with
  | .ok (.cut t _) => some t
  | _ => none

theorem reaches_iff_stateAfter {n : Nat} {s t : State Rat} :
    Reaches n s t ↔ s.stateAfter n = some t := by
  unfold Reaches stateAfter
  constructor
  · rintro ⟨events, h⟩
    rw [h]
  · intro h
    split at h
    · next events hr =>
      cases h
      exact ⟨events, hr⟩
    · cases h

theorem reaches_zero {s t : State Rat} : Reaches 0 s t ↔ s = t := by
  constructor
  · rintro ⟨events, h⟩
    cases h
    rfl
  · rintro rfl
    exact ⟨[], rfl⟩

theorem reaches_succ {n : Nat} {s t : State Rat} : Reaches (n + 1) s t ↔
    ∃ u events, s.advance = .ok (.moved u events) ∧ Reaches n u t := by
  constructor
  · rintro ⟨events, h⟩
    rw [run] at h
    cases ha : s.advance with
    | error f =>
      rw [ha] at h
      cases h
    | ok turn =>
      rw [bind_eq ha] at h
      cases turn with
      | stopped status event => cases h
      | moved u first =>
        dsimp only at h
        cases hu : u.run n with
        | error f =>
          rw [hu] at h
          cases h
        | ok r =>
          rw [bind_eq hu] at h
          cases r with
          | finished status last later => cases h
          | cut last later =>
            cases h
            exact ⟨u, first, rfl, later, hu⟩
  · rintro ⟨u, first, ha, later, hu⟩
    refine ⟨first ++ later, ?_⟩
    rw [run, bind_eq ha]
    dsimp only
    rw [bind_eq hu]
    rfl

theorem reaches_one {s t : State Rat} :
    Reaches 1 s t ↔ ∃ events, s.advance = .ok (.moved t events) := by
  rw [reaches_succ]
  constructor
  · rintro ⟨u, events, ha, hu⟩
    exact ⟨events, reaches_zero.mp hu ▸ ha⟩
  · rintro ⟨events, ha⟩
    exact ⟨t, events, ha, reaches_zero.mpr rfl⟩

theorem Reaches.unique {n : Nat} {s t u : State Rat} (ht : Reaches n s t) (hu : Reaches n s u) :
    t = u :=
  Option.some.inj ((reaches_iff_stateAfter.mp ht).symm.trans (reaches_iff_stateAfter.mp hu))

theorem reaches_add {k n : Nat} {s t : State Rat} :
    Reaches (k + n) s t ↔ ∃ u, Reaches k s u ∧ Reaches n u t := by
  induction k generalizing s with
  | zero =>
    rw [Nat.zero_add]
    exact ⟨fun h => ⟨s, reaches_zero.mpr rfl, h⟩, fun ⟨u, hu, h⟩ => reaches_zero.mp hu ▸ h⟩
  | succ k ih =>
    rw [Nat.succ_add_eq_add_succ, Nat.add_succ, reaches_succ]
    constructor
    · rintro ⟨v, events, ha, hv⟩
      obtain ⟨u, hu, ht⟩ := ih.mp hv
      exact ⟨u, reaches_succ.mpr ⟨v, events, ha, hu⟩, ht⟩
    · rintro ⟨u, hu, ht⟩
      obtain ⟨v, events, ha, hv⟩ := reaches_succ.mp hu
      exact ⟨v, events, ha, ih.mpr ⟨u, hv, ht⟩⟩

theorem Reaches.until {k n : Nat} {s t : State Rat} (h : Reaches n s t) (hk : k ≤ n) :
    ∃ u, Reaches k s u ∧ Reaches (n - k) u t := by
  rw [← Nat.add_sub_cancel' hk] at h
  exact reaches_add.mp h

/-! ## Phases along a trace -/

section Phases

variable {p : Program Rat} {kept : List Nat} {s t : State Rat} {n : Nat}

theorem Reaches.exists_invariant (r : Reaches n s t) (h : s.Invariant p kept) :
    ∃ rest, t.Invariant p rest := by
  induction n generalizing s kept with
  | zero => exact ⟨kept, reaches_zero.mp r ▸ h⟩
  | succ n ih =>
    obtain ⟨u, events, ha, hu⟩ := reaches_succ.mp r
    obtain ⟨rest, hrest⟩ := (h.turned ha).invariant h
    exact ih hu hrest

/-- There is no way back from phase two. -/
theorem Reaches.phase_two (r : Reaches n s t) (h : s.Invariant p kept) (hp : s.phase = .two) :
    t.phase = .two := by
  induction n generalizing s kept with
  | zero => exact reaches_zero.mp r ▸ hp
  | succ n ih =>
    obtain ⟨u, events, ha, hu⟩ := reaches_succ.mp r
    cases h.turned ha with
    | reduced hone =>
      rw [hone] at hp
      cases hp
    | pivoted hj hd hl e => exact ih hu (h.exchange hj hd hl e) (e.phase.trans hp)

/-- On the way to a state in the same phase, the phase does not change. -/
theorem Reaches.phase_between {k : Nat} {u : State Rat} (r : Reaches k s u) (q : Reaches n u t)
    (h : s.Invariant p kept) (hp : t.phase = s.phase) : u.phase = s.phase := by
  obtain ⟨rest, hrest⟩ := r.exists_invariant h
  cases hs : s.phase with
  | two => exact r.phase_two h hs
  | one =>
    cases hu : u.phase with
    | one => rfl
    | two =>
      rw [q.phase_two hrest hu, hs] at hp
      cases hp

/-- Turns that stay in one phase are exchanges. -/
theorem Reaches.exchange (r : Reaches (n + 1) s t) (h : s.Invariant p kept)
    (hp : t.phase = s.phase) : ∃ u i j d, s.Enters j ∧ s.Directs j d ∧ s.Leaves d i ∧
      Exchange s u i j d ∧ Reaches 1 s u ∧ Reaches n u t := by
  obtain ⟨u, events, ha, hu⟩ := reaches_succ.mp r
  have hfirst := reaches_one.mpr ⟨events, ha⟩
  have hphase := hfirst.phase_between hu h hp
  cases h.turned ha with
  | reduced hone _ _ hred =>
    rw [hone, hred.phase] at hphase
    cases hphase
  | pivoted hj hd hl e => exact ⟨u, _, _, _, hj, hd, hl, e, hfirst, hu⟩

theorem Reaches.invariant (r : Reaches n s t) (h : s.Invariant p kept) (hp : t.phase = s.phase) :
    t.Invariant p kept := by
  induction n generalizing s with
  | zero => exact reaches_zero.mp r ▸ h
  | succ n ih =>
    obtain ⟨u, i, j, d, hj, hd, hl, e, -, hu⟩ := r.exchange h hp
    exact ih hu (h.exchange hj hd hl e) (hp.trans e.phase.symm)

end Phases

/-! ## States with one basis -/

/-- The variables of the basis, row by row. -/
def basis (s : State Rat) : List Nat := s.rows.map (·.basic)

/-- The states are in the same phase and have the same basis. -/
structure Alike (s t : State Rat) : Prop where
  phase : s.phase = t.phase
  basis : s.basis = t.basis

theorem Alike.of_rows {s t : State Rat} (hp : s.phase = t.phase) (hm : s.rowCount = t.rowCount)
    (hb : ∀ i < s.rowCount, (s.row i).basic = (t.row i).basic) : Alike s t := by
  refine ⟨hp, List.ext_getElem ?_ fun i hs ht => ?_⟩
  · rw [State.basis, State.basis, List.length_map, List.length_map]
    exact hm
  · have hs : i < s.rows.length := by simpa [State.basis] using hs
    have ht : i < t.rows.length := by simpa [State.basis] using ht
    simp only [State.basis, List.getElem_map]
    simp only [← row_eq hs, ← row_eq ht, hb i hs]

theorem Alike.trans {s t u : State Rat} (h : Alike s t) (g : Alike t u) : Alike s u :=
  ⟨h.phase.trans g.phase, h.basis.trans g.basis⟩

namespace Alike

variable {p : Program Rat} {kept : List Nat} {s t : State Rat}

theorem rowCount_eq (h : Alike s t) : t.rowCount = s.rowCount := by
  have := congrArg List.length h.basis
  simpa [State.basis, rowCount] using this.symm

theorem basic_eq (h : Alike s t) {i : Nat} (hi : i < s.rowCount) :
    (t.row i).basic = (s.row i).basic := by
  have hs : i < s.rows.length := hi
  have ht : i < t.rows.length := hi.trans_eq h.rowCount_eq.symm
  have := congrArg (fun l => l[i]?) h.basis
  rw [row_eq hs, row_eq ht]
  simpa [State.basis, hs, ht] using this.symm

theorem variableCount_eq (hs : s.Invariant p kept) (ht : t.Invariant p kept) :
    t.variableCount = s.variableCount := ht.variableCount.trans hs.variableCount.symm

theorem column_eq (hs : s.Invariant p kept) (ht : t.Invariant p kept) (j : Nat) :
    t.column j = s.column j := by
  simp only [column, hs.columns, ht.columns]

theorem fullColumn_eq (hs : s.Invariant p kept) (ht : t.Invariant p kept) (v k : Nat) :
    t.fullColumn v k = s.fullColumn v k := by
  simp only [fullColumn, variableCount_eq hs ht, column_eq hs ht]

/-- The inverse of a basis is unique. -/
theorem express_eq (h : Alike s t) (hs : s.Invariant p kept) (ht : t.Invariant p kept)
    (x : Nat → Rat) {i : Nat} (hi : i < s.rowCount) : t.express x i = s.express x i := by
  have hx : ∀ k < s.rowCount, x k = ∑ q ∈ range t.rowCount,
      t.express x q * s.fullColumn (s.row q).basic k := by
    intro k hk
    rw [← ht.solved.expand x (h.rowCount_eq ▸ hk)]
    apply sum_range_congr
    intro q hq
    simp only [h.basic_eq (h.rowCount_eq ▸ hq), fullColumn_eq hs ht, mul_comm]
  rw [s.express_congr hx, express_sum,
    Finset.sum_eq_single_of_mem i (Finset.mem_range.mpr (h.rowCount_eq ▸ hi))]
  · simp [express_mul, hs.solved.inverse i hi i hi]
  · intro q hq hne
    have hq := h.rowCount_eq ▸ Finset.mem_range.mp hq
    simp [express_mul, hs.solved.inverse i hi q hq, Ne.symm hne]

theorem phaseCost_eq (h : Alike s t) (hs : s.Invariant p kept) (ht : t.Invariant p kept)
    (j : Nat) : t.phaseCost j = s.phaseCost j := by
  simp only [phaseCost, h.phase, hs.costs, ht.costs]

theorem cost_eq (h : Alike s t) (hs : s.Invariant p kept) (ht : t.Invariant p kept) {i : Nat}
    (hi : i < s.rowCount) : (t.row i).cost = (s.row i).cost := by
  simp only [hs.priced i hi, ht.priced i (h.rowCount_eq ▸ hi), h.basic_eq hi,
    variableCount_eq hs ht, h.phaseCost_eq hs ht]

theorem reduced_eq (h : Alike s t) (hs : s.Invariant p kept) (ht : t.Invariant p kept)
    (j : Nat) : t.reduced j = s.reduced j := by
  rw [State.reduced_eq, State.reduced_eq, h.phaseCost_eq hs ht, h.rowCount_eq]
  congr 1
  apply sum_range_congr
  intro i hi
  simp only [column_eq hs ht, h.express_eq hs ht _ hi, h.cost_eq hs ht hi]

theorem marked_eq (h : Alike s t) (hs : s.Invariant p kept) (ht : t.Invariant p kept) {j : Nat}
    (hj : j < s.variableCount) : t.marked j = s.marked j := by
  rw [Bool.eq_iff_iff, hs.solved.marked j hj,
    ht.solved.marked j (variableCount_eq hs ht ▸ hj), h.rowCount_eq]
  exact exists_congr fun i => and_congr_right fun hi => by rw [h.basic_eq hi]

theorem value_eq (h : Alike s t) (hs : s.Invariant p kept) (ht : t.Invariant p kept) {i : Nat}
    (hi : i < s.rowCount) : t.value (t.row i).basic = s.value (s.row i).basic := by
  simp only [hs.solved.basic_value i hi, ht.solved.basic_value i (h.rowCount_eq ▸ hi),
    h.express_eq hs ht _ hi]

theorem settled (h : Alike s t) (hs : s.Invariant p kept) (ht : t.Invariant p kept)
    (hsettled : t.Settled) : s.Settled := by
  intro j hj hm
  rw [← h.reduced_eq hs ht]
  exact hsettled j (variableCount_eq hs ht ▸ hj) (h.marked_eq hs ht hj ▸ hm)

theorem entering_eq (h : Alike s t) (hs : s.Invariant p kept) (ht : t.Invariant p kept) {j q : Nat}
    (hj : s.Enters j) (hq : t.Enters q) : q = j := by
  have hqn : q < s.variableCount := variableCount_eq hs ht ▸ hq.lt
  rcases Nat.lt_trichotomy q j with hlt | rfl | hlt
  · have hle := hj.first q hlt (h.marked_eq hs ht hqn ▸ hq.unmarked)
    rw [← h.reduced_eq hs ht] at hle
    exact absurd hq.negative (not_lt.mpr hle)
  · rfl
  · have hle := hq.first j hlt (h.marked_eq hs ht hj.lt ▸ hj.unmarked)
    rw [h.reduced_eq hs ht] at hle
    exact absurd hj.negative (not_lt.mpr hle)

theorem direction_eq (h : Alike s t) (hs : s.Invariant p kept) (ht : t.Invariant p kept) {j : Nat}
    {d e : List Rat} (hd : s.Directs j d) (he : t.Directs j e) : e = d := by
  apply eq_of_coord (by rw [hd.length, he.length, h.rowCount_eq])
  intro i hi
  rw [he.length] at hi
  simp only [he.entry i hi, hd.entry i (h.rowCount_eq ▸ hi), column_eq hs ht,
    h.express_eq hs ht _ (h.rowCount_eq ▸ hi)]

theorem ratio_eq (h : Alike s t) (hs : s.Invariant p kept) (ht : t.Invariant p kept)
    (d : List Rat) {i : Nat} (hi : i < s.rowCount) : t.ratio d i = s.ratio d i := by
  simp only [ratio, h.value_eq hs ht hi]

theorem leaving_eq (h : Alike s t) (hs : s.Invariant p kept) (ht : t.Invariant p kept)
    {d : List Rat} {i r : Nat} (hi : s.Leaves d i) (hr : t.Leaves d r) : r = i := by
  obtain ⟨him, hipos, hileast⟩ := hi
  obtain ⟨hrt, hrpos, hrleast⟩ := hr
  have hrm : r < s.rowCount := h.rowCount_eq ▸ hrt
  rcases Nat.lt_trichotomy r i with hlt | rfl | hlt
  · have h1 := (hileast r hrm hrpos).2 hlt
    have h2 := (hrleast i (h.rowCount_eq ▸ him) hipos).1
    rw [h.ratio_eq hs ht d hrm, h.ratio_eq hs ht d him] at h2
    exact absurd h1 (not_lt.mpr h2)
  · rfl
  · have h1 := (hrleast i (h.rowCount_eq ▸ him) hipos).2 hlt
    have h2 := (hileast r hrm hrpos).1
    rw [h.ratio_eq hs ht d hrm, h.ratio_eq hs ht d him] at h1
    exact absurd h1 (not_lt.mpr h2)

/-- The same exchange in states with one basis leads to states with one basis. -/
theorem exchange (h : Alike s t) {u v : State Rat} {i j : Nat} {d : List Rat}
    (es : Exchange s u i j d) (et : Exchange t v i j d) : Alike u v := by
  refine .of_rows (by rw [es.phase, et.phase, h.phase])
    (by rw [es.rowCount, et.rowCount, h.rowCount_eq]) fun r hr => ?_
  have hr := es.rowCount ▸ hr
  simp only [es.basic r hr, et.basic r (h.rowCount_eq ▸ hr), h.basic_eq hr]

/-- States with one basis make the same exchanges. -/
theorem advance (h : Alike s t) (hs : s.Invariant p kept) (ht : t.Invariant p kept) {u : State Rat}
    {i j : Nat} {d : List Rat} (hj : s.Enters j) (hd : s.Directs j d) (hl : s.Leaves d i)
    (e : Exchange s u i j d) : ∃ v, Reaches 1 t v ∧ v.Invariant p kept ∧ Alike u v := by
  obtain ⟨turn, hturn, m⟩ := advance_ok ht.solved ht.nonneg
  have unsettled : ¬ t.Settled := fun hsettled =>
    absurd hj.negative (not_lt.mpr (h.settled hs ht hsettled _ hj.lt hj.unmarked))
  cases m with
  | optimal _ hsettled => exact absurd hsettled unsettled
  | infeasible _ hsettled => exact absurd hsettled unsettled
  | reduced _ hsettled => exact absurd hsettled unsettled
  | unbounded hq hf hblocked =>
    obtain rfl := h.entering_eq hs ht hj hq
    obtain rfl := h.direction_eq hs ht hd hf
    exact absurd hl.2.1 (not_lt.mpr (hblocked _ (h.rowCount_eq ▸ hl.1)))
  | pivoted hq hf hk f =>
    obtain rfl := h.entering_eq hs ht hj hq
    obtain rfl := h.direction_eq hs ht hd hf
    obtain rfl := h.leaving_eq hs ht hl hk
    exact ⟨_, reaches_one.mpr ⟨_, hturn⟩, ht.exchange hq hf hk f, h.exchange e f⟩

/-- Traces within a phase can be repeated from any state with the same basis. -/
theorem reaches (h : Alike s t) (hs : s.Invariant p kept) (ht : t.Invariant p kept) {n : Nat}
    {u : State Rat} (r : Reaches n s u) (hp : u.phase = s.phase) :
    ∃ v, Reaches n t v ∧ Alike u v := by
  induction n generalizing s t with
  | zero =>
    obtain rfl := reaches_zero.mp r
    exact ⟨t, reaches_zero.mpr rfl, h⟩
  | succ n ih =>
    obtain ⟨w, i, j, d, hj, hd, hl, e, -, hw⟩ := r.exchange hs hp
    obtain ⟨x, hx, hinv, halike⟩ := h.advance hs ht hj hd hl e
    obtain ⟨v, hv, huv⟩ := ih halike (hs.exchange hj hd hl e) hinv hw (hp.trans e.phase.symm)
    rw [Nat.add_comm]
    exact ⟨v, reaches_add.mpr ⟨x, hx, hv⟩, huv⟩

end Alike

/-! ## Coming back -/

/-- An engine that comes back to a basis goes round for ever. -/
theorem reaches_forever {p : Program Rat} {kept : List Nat} {s t : State Rat}
    (h : s.Invariant p kept) {k : Nat} (hk : 0 < k) (r : Reaches k s t) (e : Alike s t) (n : Nat) :
    ∃ u, Reaches n s u := by
  have rounds : ∀ q, ∃ u, Reaches (q * k) s u ∧ Alike s u := by
    intro q
    induction q with
    | zero =>
      rw [Nat.zero_mul]
      exact ⟨s, reaches_zero.mpr rfl, rfl, rfl⟩
    | succ q ih =>
      obtain ⟨u, hu, hsu⟩ := ih
      obtain ⟨v, hv, htv⟩ := hsu.reaches h (hu.invariant h hsu.phase.symm) r e.phase.symm
      refine ⟨v, ?_, e.trans htv⟩
      rw [Nat.succ_mul]
      exact reaches_add.mpr ⟨u, hu, hv⟩
  obtain ⟨u, hu, -⟩ := rounds n
  obtain ⟨v, hv, -⟩ := hu.until (Nat.le_mul_of_pos_right n hk)
  exact ⟨v, hv⟩

end LinearProgramming.Simplex.State
