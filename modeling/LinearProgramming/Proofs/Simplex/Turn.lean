import LinearProgramming.Proofs.Simplex.PhaseOne

/-!
# Turns

* `Turned`: everything that a turn can come to, with what made it so;
* `advance_ok`: a turn of a solved state goes wrong nowhere, and comes to one of these.
-/

namespace LinearProgramming.Simplex.State

/-- No variable out of the basis has a negative reduced cost. -/
def Settled (s : State Rat) : Prop :=
  ∀ j < s.variableCount, s.marked j = false → 0 ≤ s.reduced j

/-- The variable is the first out of the basis with a negative reduced cost. -/
structure Enters (s : State Rat) (j : Nat) : Prop where
  lt : j < s.variableCount
  unmarked : s.marked j = false
  negative : s.reduced j < 0
  first : ∀ i < j, s.marked i = false → 0 ≤ s.reduced i

/-- The vector is the column of a variable, expressed in the basis. -/
structure Directs (s : State Rat) (j : Nat) (d : List Rat) : Prop where
  length : d.length = s.rowCount
  entry : ∀ r < s.rowCount, coord d r = s.express (coord (s.column j)) r

/-- What a turn of a state that is solved for `b` may come to. -/
inductive Turned (s : State Rat) (b : Nat → Rat) : Turn Rat → Prop where
  | optimal (phase : s.phase = .two) (settled : s.Settled) :
    Turned s b (.stopped .optimal (.optimal s.pivots))
  | infeasible (phase : s.phase = .one) (settled : s.Settled) (sum : 0 < s.artificialSum) :
    Turned s b (.stopped .infeasible (.infeasible s.pivots))
  | reduced {t : State Rat} {events : List Event} {kept : List Nat} (phase : s.phase = .one)
    (settled : s.Settled) (clear : s.Clear) (reduction : s.Reduction b kept t) :
    Turned s b (.moved t events)
  | unbounded {j : Nat} {d : List Rat} (enters : s.Enters j) (directs : s.Directs j d)
    (blocked : ∀ r < s.rowCount, coord d r ≤ 0) :
    Turned s b (.stopped .unbounded (.unbounded j s.pivots))
  | pivoted {i j : Nat} {d : List Rat} {t : State Rat} {events : List Event} (enters : s.Enters j)
    (directs : s.Directs j d) (leaves : s.Leaves d i) (exchange : Exchange s t i j d) :
    Turned s b (.moved t events)

theorem Exchange.withPivots {s t : State Rat} {i j : Nat} {d : List Rat} (e : Exchange s t i j d)
    (n : Nat) : Exchange s { t with pivots := n } i j d :=
  ⟨e.columns, e.costs, e.phase, e.rowCount, e.values_length, e.basic, e.cost, e.inverse, e.marked,
    e.value, e.shaped.columns, e.shaped.costs, e.shaped.inverses, e.shaped.basics, e.shaped.inBasis,
    e.shaped.values⟩

/-- A variable enters: the ratio test finds a row for it, or nothing stops its growth. -/
theorem advance_of_entering {s : State Rat} (h : s.Shaped) {j : Nat}
    (he : s.entering? = .ok (some j)) :
    ∃ d, s.direction j = .ok d ∧ s.Enters j ∧ s.Directs j d ∧
      ((s.leaving? d = .ok none ∧ (∀ r < s.rowCount, coord d r ≤ 0) ∧
        s.advance = .ok (.stopped .unbounded (.unbounded j s.pivots))) ∨
      ∃ i t events, s.leaving? d = .ok (some i) ∧ s.Leaves d i ∧ Exchange s t i j d ∧
        s.advance = .ok (.moved t events)) := by
  obtain ⟨hj, hu, hneg, hfirst⟩ := h.entering?_eq_some he
  obtain ⟨d, hd, hl, hdir⟩ := h.direction_eq_ok hj
  obtain ⟨best, hbest, hnone, hsome⟩ := leaving?_ok h hl
  refine ⟨d, hd, ⟨hj, hu, hneg, hfirst⟩, ⟨hl, hdir⟩, ?_⟩
  unfold advance
  rw [bind_eq he]
  dsimp only
  rw [bind_eq hd, bind_eq hbest]
  cases best with
  | none => exact .inl ⟨hbest, hnone rfl, rfl⟩
  | some i =>
    have hleaves := hsome i rfl
    obtain ⟨t, ht, hp, e⟩ := pivot_eq_ok h hl hleaves.1 hj hleaves.2.1.ne'
    dsimp only
    rw [bind_eq (fetch_row hleaves.1), bind_eq ht]
    exact .inr ⟨i, _, _, hbest, hleaves, e.withPivots _, rfl⟩

theorem advance_entering {s : State Rat} {b : Nat → Rat} (h : s.Shaped) {j : Nat}
    (he : s.entering? = .ok (some j)) : ∃ turn, s.advance = .ok turn ∧ s.Turned b turn := by
  obtain ⟨d, -, hj, hd, ⟨-, hblocked, ha⟩ | ⟨i, t, events, -, hl, e, ha⟩⟩ :=
    advance_of_entering h he
  · exact ⟨_, ha, .unbounded hj hd hblocked⟩
  · exact ⟨_, ha, .pivoted hj hd hl e⟩

/-- A turn of a solved state without negative values never fails. -/
theorem advance_ok {s : State Rat} {b : Nat → Rat} (h : s.Solved b) (hv : ∀ v, 0 ≤ s.value v) :
    ∃ turn, s.advance = .ok turn ∧ s.Turned b turn := by
  cases he : (List.range s.variableCount).find? fun j =>
      !s.marked j && decide (s.reduced j < 0) with
  | some j => exact advance_entering h.shaped (he ▸ h.shaped.entering?_eq_ok)
  | none =>
    have hnone : s.entering? = .ok none := he ▸ h.shaped.entering?_eq_ok
    have hsettled : s.Settled := fun j => h.shaped.entering?_eq_none hnone
    unfold advance
    rw [bind_eq hnone]
    cases hp : s.phase with
    | two => exact ⟨_, rfl, .optimal hp hsettled⟩
    | one =>
      rcases finishPhaseOne_ok h hv with ⟨hsum, hf⟩ | ⟨t, events, c, hf, hz, -, hred⟩
      · dsimp only
        rw [bind_eq hf]
        exact ⟨_, rfl, .infeasible hp hsettled hsum⟩
      · dsimp only
        rw [bind_eq hf]
        exact ⟨_, rfl, .reduced hp hsettled hz hred⟩

end LinearProgramming.Simplex.State
