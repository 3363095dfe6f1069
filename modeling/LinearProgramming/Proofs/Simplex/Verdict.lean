import LinearProgramming.Canonical
import LinearProgramming.Proofs.Simplex.Invariant

/-!
# Verdicts of the engine

* `run_ok`: a run goes wrong nowhere, and stops only where the invariant holds;
* `Turned.cheapest`, `Turned.unsolvable`, `Turned.bottomless`: what is true where it stops;
* `solveCanonical_correct`: what the engine says of a canonical program is true.
-/

namespace LinearProgramming.Simplex

open Finset

namespace State

variable {p : Program Rat} {kept : List Nat} {s : State Rat}

/-! ## Runs -/

/-- If the run stopped by itself, it did so in a state of the program. -/
def Run.Sound (p : Program Rat) : Run Rat → Prop
  | .cut .. => True
  | .finished status last _ => ∃ kept event, last.Invariant p kept ∧
    last.Turned (fun q => p.rhs (kept.getD q 0)) (.stopped status event)

theorem Run.Sound.after {r : Run Rat} (h : r.Sound p) (events : List Event) :
    (r.after events).Sound p := by
  cases r with
  | cut => trivial
  | finished => exact h

theorem run_ok (h : s.Invariant p kept) (limit : Nat) :
    ∃ r, s.run limit = .ok r ∧ r.Sound p := by
  induction limit generalizing s kept with
  | zero => exact ⟨_, rfl, trivial⟩
  | succ limit ih =>
    obtain ⟨turn, ht, m⟩ := advance_ok h.solved h.nonneg
    rw [run, bind_eq ht]
    cases turn with
    | stopped status event => exact ⟨_, rfl, kept, event, h, m⟩
    | moved t events =>
      obtain ⟨rest, hrest⟩ := m.invariant h
      obtain ⟨r, hr, hsound⟩ := ih hrest
      dsimp only
      rw [bind_eq hr]
      exact ⟨_, rfl, hsound.after events⟩

/-! ## Ends -/

/-- The values of the program's variables. -/
theorem coord_take (s : State Rat) {n j : Nat} (hj : j < n) :
    coord (s.values.take n) j = s.value j := by
  simp [coord, value, hj]

theorem take_length (h : s.Invariant p kept) :
    (s.values.take p.variableCount).length = p.variableCount := by
  rw [List.length_take, ← h.variableCount]
  exact Nat.min_eq_left h.solved.shaped.values

/-- At an optimum the values solve the program at the least cost. -/
theorem cheapest (h : s.Invariant p kept) (hp : s.phase = .two) (hs : s.Settled) :
    p.Cheapest (s.values.take p.variableCount) := by
  have hz := h.clear hp
  have hl := take_length h
  have hc : ∀ j < p.variableCount, coord (s.values.take p.variableCount) j = s.value j :=
    fun j hj => s.coord_take hj
  refine ⟨h.solves_of_meets (h.solved.meets h.nonneg hz) hl hc, ?_⟩
  intro y hy
  calc p.objective (s.values.take p.variableCount)
      = s.basisCost := by
        rw [← h.phaseObjective_eq hp hl hc, h.solved.basisCost_eq h.priced hz]
    _ ≤ s.phaseObjective (coord y) := h.solved.basisCost_le h.priced hs (h.meets_of_solves hy)
    _ = p.objective y := h.phaseObjective_eq hp hy.length fun _ _ => rfl

/-- If the artificial variables cannot vanish, nothing solves the program. -/
theorem unsolvable (h : s.Invariant p kept) (hp : s.phase = .one) (hs : s.Settled)
    (ha : 0 < s.artificialSum) (x : List Rat) : ¬ p.Solves x := fun hx =>
  h.solved.not_meets h.priced hp hs (h.solved.basisCost_pos h.priced hp h.nonneg ha) (coord x)
    (h.meets_of_solves hx)

/-- In phase one the growth of a variable is always stopped: a negative reduced cost means that some
artificial variable decreases. -/
theorem phase_two_of_blocked (h : s.Invariant p kept) {j : Nat} {d : List Rat} (hj : s.Enters j)
    (hd : s.Directs j d) (hb : ∀ r < s.rowCount, coord d r ≤ 0) : s.phase = .two := by
  cases hp : s.phase with
  | two => rfl
  | one =>
    have hneg := hj.negative
    rw [reduced_eq, phaseCost, hp] at hneg
    have hsum : ∑ i ∈ range s.rowCount,
        (s.row i).cost * s.express (coord (s.column j)) i ≤ 0 := by
      apply Finset.sum_nonpos
      intro i hi
      have hi := Finset.mem_range.mp hi
      refine mul_nonpos_of_nonneg_of_nonpos ?_ (hd.entry i hi ▸ hb i hi)
      rw [h.priced i hi, phaseCost, hp]
      split <;> norm_num
    linarith

/-- Where nothing stops the entering variable, the program has ever cheaper solutions. -/
theorem bottomless (h : s.Invariant p kept) {j : Nat} {d : List Rat} (hj : s.Enters j)
    (hd : s.Directs j d) (hb : ∀ r < s.rowCount, coord d r ≤ 0) : p.Bottomless := by
  have hp := phase_two_of_blocked h hj hd hb
  intro value
  -- far enough along the direction
  have hneg := hj.negative
  let excess := max 0 (s.phaseObjective s.value - value + 1)
  let step := excess / -s.reduced j
  have hstep : 0 ≤ step := div_nonneg (le_max_left _ _) (by linarith)
  have hl : ((List.range p.variableCount).map (s.along j d step)).length = p.variableCount := by
    simp
  have hc : ∀ v < p.variableCount, coord ((List.range p.variableCount).map (s.along j d step)) v =
      s.along j d step v := fun v hv => by simp [coord, hv]
  refine ⟨_, h.solves_of_meets
    (h.solved.ray_meets (h.basics hp) h.nonneg hj.lt hd.entry hb hstep) hl hc, ?_⟩
  have hgain : step * s.reduced j = -excess := by
    have hne : -s.reduced j ≠ 0 := by linarith
    calc step * s.reduced j = -(excess / -s.reduced j * -s.reduced j) := by ring
      _ = -excess := by rw [div_mul_cancel₀ _ hne]
  have hfar : s.phaseObjective s.value - value + 1 ≤ excess := le_max_right _ _
  rw [← h.phaseObjective_eq hp hl hc,
    h.solved.ray_cost h.priced (h.basics hp) hj.lt hd.entry, hgain]
  linarith

end State

/-! ## Canonical programs -/

theorem lower_nonneg {p : Program Rat} (hc : p.isCanonical = true) : ∀ b ∈ p.rows, 0 ≤ b.lower := by
  intro b hb
  simp only [Program.isCanonical, Bool.and_eq_true, List.all_eq_true] at hc
  have := hc.2 b hb
  simpa using this

/-- The run on a canonical program goes wrong nowhere, and stops only in a state of the program. -/
theorem runCanonical_ok {p : Program Rat} (hs : p.Stored) (hc : p.isCanonical = true)
    (limit : Nat) : ∃ r, runCanonical limit p = .ok r ∧ r.Sound p := by
  have hinv := State.initial_invariant (lower_nonneg hc)
  obtain ⟨r, hr, hsound⟩ := State.run_ok hinv limit
  refine ⟨r.after [.phaseOne p.variableCount p.rowCount], ?_, hsound.after _⟩
  rw [runCanonical, bind_eq (State.start_eq hs), bind_eq hr]
  rfl

/-- Where a run stops, what it says is true. -/
theorem State.Run.Sound.verdict {p : Program Rat} {status : Status} {last : State Rat}
    {events : List Event} (h : (State.Run.finished status last events).Sound p) :
    (status = .optimal ∧ p.Cheapest (last.values.take p.variableCount)) ∨
      (status = .infeasible ∧ ∀ x, ¬ p.Solves x) ∨
        (status = .unbounded ∧ last.phase = .two ∧ p.Bottomless) := by
  obtain ⟨kept, event, hinv, m⟩ := h
  cases m with
  | optimal hp hs => exact .inl ⟨rfl, State.cheapest hinv hp hs⟩
  | infeasible hp hs ha => exact .inr (.inl ⟨rfl, State.unsolvable hinv hp hs ha⟩)
  | unbounded hj hd hb =>
    exact .inr (.inr ⟨rfl, State.phase_two_of_blocked hinv hj hd hb,
      State.bottomless hinv hj hd hb⟩)

/-- The engine never faults: either it was stopped, or what it says is true. -/
theorem solveCanonical_ok {p : Program Rat} (hs : p.Stored) (hc : p.isCanonical = true)
    (limit : Nat) : solveCanonical limit p = .error .stepLimit ∨
      ∃ o, solveCanonical limit p = .ok o ∧
        ((o.status = .optimal ∧ p.Cheapest o.values) ∨
          (o.status = .infeasible ∧ ∀ x, ¬ p.Solves x) ∨
            (o.status = .unbounded ∧ p.Bottomless)) := by
  obtain ⟨r, hr, hsound⟩ := runCanonical_ok hs hc limit
  unfold solveCanonical
  rw [hr]
  cases r with
  | cut => exact .inl rfl
  | finished status last events =>
    refine .inr ⟨_, rfl, ?_⟩
    exact (hsound.verdict).imp_right (Or.imp_right fun h => ⟨h.1, h.2.2⟩)

/-- What the engine says of a canonical program is true, whenever it says anything: an optimum
solves all rows at the least cost, an infeasible program has no solution, and an unbounded one has
ever cheaper ones, which is found in phase two only. -/
theorem solveCanonical_correct {p : Program Rat} (hs : p.Stored) (hc : p.isCanonical = true)
    (limit : Nat) :
    (∀ f, solveCanonical limit p ≠ .error (.faulted f)) ∧
    (∀ o, solveCanonical limit p = .ok o →
      (o.status = .optimal ∧ p.Cheapest o.values) ∨
      (o.status = .infeasible ∧ ∀ x, ¬ p.Solves x) ∨
      (o.status = .unbounded ∧ (∃ x, p.Solves x) ∧ p.Bottomless)) ∧
    ∀ last events, runCanonical limit p = .ok (.finished .unbounded last events) →
      last.phase = .two := by
  refine ⟨?_, ?_, ?_⟩
  · intro f h
    rcases solveCanonical_ok hs hc limit with he | ⟨o, ho, -⟩
    · rw [he] at h
      cases h
    · rw [ho] at h
      cases h
  · intro o h
    rcases solveCanonical_ok hs hc limit with he | ⟨q, hq, hv⟩
    · rw [he] at h
      cases h
    · obtain rfl : q = o := Except.ok.inj (hq.symm.trans h)
      refine hv.imp_right (Or.imp_right fun ⟨hst, hb⟩ => ⟨hst, ?_, hb⟩)
      obtain ⟨x, hx, -⟩ := hb 0
      exact ⟨x, hx⟩
  · intro last events h
    obtain ⟨r, hr, hsound⟩ := runCanonical_ok hs hc limit
    obtain rfl := Except.ok.inj (hr.symm.trans h)
    rcases hsound.verdict with ⟨hst, -⟩ | ⟨hst, -⟩ | ⟨-, hp, -⟩
    · cases hst
    · cases hst
    · exact hp

/-- Two variables whose sum is 2, stated twice; the second one is dearer. -/
def stutter : Program Rat where
  sense := .minimize
  columns := [⟨.nonnegative, 1, [(0, 1), (1, 2)]⟩, ⟨.nonnegative, 3, [(0, 1), (1, 2)]⟩]
  rows := [⟨2, 2⟩, ⟨4, 4⟩]

theorem solveCanonical_stutter : stutter.Stored ∧ stutter.isCanonical = true ∧
    ∃ o, solveCanonical 5 stutter = .ok o ∧ o.status = .optimal ∧ o.values = [2, 0] ∧
      stutter.Cheapest o.values := by
  have hs : stutter.Stored := by decide
  have hc : stutter.isCanonical = true := by decide
  have ho : solveCanonical 5 stutter = .ok ⟨.optimal, [2, 0],
      [.phaseOne 2 2, .pivot 0 0 2 0, .redundant 1, .phaseTwo 1, .optimal 1]⟩ := by
    decide +kernel
  refine ⟨hs, hc, _, ho, rfl, rfl, ?_⟩
  rcases (solveCanonical_correct hs hc 5).2.1 _ ho with ⟨-, h⟩ | ⟨h, -⟩ | ⟨h, -⟩
  · exact h
  · cases h
  · cases h

end LinearProgramming.Simplex
