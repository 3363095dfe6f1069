import LinearProgramming.Proofs.Simplex.Trace
import LinearProgramming.Proofs.Simplex.Verdict
import Mathlib.Data.Fintype.BigOperators
import Mathlib.Data.Fintype.Pigeonhole

/-!
# Cycles of the engine

The entering variable is the first one with a negative reduced cost, but the variable that leaves is
that of the first row with the least ratio, whatever its position among the variables. This does
not keep the engine from coming back to a basis.

* `solveCanonical_returns_iff`: the engine returns exactly on the programs on which it never comes
  back to a basis, and then after a bounded number of turns;
* `carousel_never_returns`: on two rows and six variables it goes round for ever.
-/

namespace LinearProgramming.Simplex

open State

/-- On the way from the start, the engine comes back to a basis in the same phase. -/
def Cycles (p : Program Rat) : Prop :=
  ∃ s t u : State Rat, ∃ k n : Nat, State.start p = .ok s ∧ Reaches k s t ∧ Reaches n t u ∧
    0 < n ∧ Alike t u

/-- The bases of the two phases, counted generously. -/
def basisCount (p : Program Rat) : Nat := 2 * (p.variableCount + p.rowCount) ^ p.rowCount

theorem stepLimit_iff {p : Program Rat} (hs : p.Stored) (limit : Nat) :
    solveCanonical limit p = .error .stepLimit ↔ ∃ t, Reaches limit (initial p) t := by
  unfold solveCanonical runCanonical
  rw [bind_eq (start_eq hs)]
  constructor
  · intro h
    cases hr : (initial p).run limit with
    | error f =>
      rw [hr] at h
      cases h
    | ok r =>
      rw [bind_eq hr] at h
      cases r with
      | finished => cases h
      | cut t events => exact ⟨t, events, hr⟩
  · rintro ⟨t, events, hr⟩
    rw [bind_eq hr]
    rfl

theorem never_returns_of_cycles {p : Program Rat} (hs : p.Stored) (hc : p.isCanonical = true)
    (h : Cycles p) (limit : Nat) : solveCanonical limit p = .error .stepLimit := by
  obtain ⟨s, t, u, k, n, hstart, ht, hu, hn, halike⟩ := h
  obtain rfl := Except.ok.inj ((start_eq hs).symm.trans hstart)
  obtain ⟨kept, hinv⟩ := ht.exists_invariant (initial_invariant (lower_nonneg hc))
  obtain ⟨v, hv⟩ := reaches_forever hinv hn hu halike limit
  obtain ⟨w, hw, -⟩ := (reaches_add.mpr ⟨t, ht, hv⟩).until (Nat.le_add_left limit k)
  exact (stepLimit_iff hs limit).mpr ⟨w, hw⟩

theorem basic_lt {p : Program Rat} {kept : List Nat} {s : State Rat} (h : s.Invariant p kept)
    {i : Nat} (hi : i < p.rowCount) : (s.row i).basic < p.variableCount + p.rowCount := by
  by_cases hm : i < s.rowCount
  · by_cases hb : (s.row i).basic < p.variableCount
    · omega
    · rw [h.solved.own i hm (h.variableCount ▸ Nat.le_of_not_lt hb), h.variableCount]
      omega
  · have hzero : (s.row i).basic = 0 := by
      have : s.rows.length ≤ i := Nat.le_of_not_lt hm
      simp [row, this]
    omega

/-- A basis that is met twice in one phase is a cycle. -/
theorem cycles_of_rows {p : Program Rat} (hs : p.Stored) (hc : p.isCanonical = true)
    {s t : State Rat} {k l : Nat} (hk : Reaches k (initial p) s) (hl : Reaches l (initial p) t)
    (hlt : k < l) (hp : s.phase = t.phase)
    (hb : ∀ i < p.rowCount, (s.row i).basic = (t.row i).basic) : Cycles p := by
  have hsplit : l = k + (l - k) := by omega
  obtain ⟨u, hu, hut⟩ := reaches_add.mp (hsplit ▸ hl)
  obtain rfl := hu.unique hk
  obtain ⟨kept, hinv⟩ := hu.exists_invariant (initial_invariant (lower_nonneg hc))
  have hm := (hut.invariant hinv hp.symm).rowCount
  exact ⟨_, _, _, k, l - k, start_eq hs, hu, hut, by omega,
    .of_rows hp (hinv.rowCount.trans hm.symm) fun i hi => hb i (hi.trans_le hinv.rowCount_le)⟩

/-- There are not enough bases for a long run without a repetition. -/
theorem cycles_of_reaches {p : Program Rat} (hs : p.Stored) (hc : p.isCanonical = true)
    {limit : Nat} (hl : basisCount p ≤ limit) {t : State Rat}
    (h : Reaches limit (initial p) t) : Cycles p := by
  have hinv := initial_invariant (lower_nonneg hc)
  have visited : ∀ k : Fin (limit + 1), ∃ u, Reaches k (initial p) u := by
    intro k
    obtain ⟨u, hu, -⟩ := h.until (Nat.le_of_lt_succ k.isLt)
    exact ⟨u, hu⟩
  choose state reached using visited
  have invariant : ∀ k, ∃ kept, (state k).Invariant p kept := fun k =>
    (reached k).exists_invariant hinv
  let key (k : Fin (limit + 1)) : Bool × (Fin p.rowCount → Fin (p.variableCount + p.rowCount)) :=
    (decide ((state k).phase = .one), fun i =>
      ⟨((state k).row i).basic, (invariant k).elim fun _ hk => basic_lt hk i.isLt⟩)
  have hcard : Fintype.card (Bool × (Fin p.rowCount → Fin (p.variableCount + p.rowCount))) <
      Fintype.card (Fin (limit + 1)) := by
    rw [Fintype.card_prod, Fintype.card_bool, Fintype.card_fun, Fintype.card_fin, Fintype.card_fin,
      Fintype.card_fin]
    exact Nat.lt_succ_of_le hl
  have repeated : ∀ k l : Fin (limit + 1), k < l → key k = key l → Cycles p := by
    intro k l hkl hkey
    have hone : decide ((state k).phase = .one) = decide ((state l).phase = .one) :=
      congrArg Prod.fst hkey
    have hphase : (state k).phase = (state l).phase := by
      revert hone
      cases (state k).phase <;> cases (state l).phase <;> decide
    apply cycles_of_rows hs hc (reached k) (reached l) hkl hphase
    intro i hi
    exact congrArg Fin.val (congrFun (congrArg Prod.snd hkey) ⟨i, hi⟩)
  obtain ⟨k, l, hne, hkey⟩ := Fintype.exists_ne_map_eq_of_card_lt key hcard
  rcases lt_or_gt_of_ne hne with hlt | hlt
  · exact repeated k l hlt hkey
  · exact repeated l k hlt hkey.symm

theorem returns_of_not_cycles {p : Program Rat} (hs : p.Stored) (hc : p.isCanonical = true)
    (h : ¬ Cycles p) : ∃ o, solveCanonical (basisCount p) p = .ok o := by
  rcases solveCanonical_ok hs hc (basisCount p) with hlimit | ⟨o, ho, -⟩
  · obtain ⟨t, ht⟩ := (stepLimit_iff hs _).mp hlimit
    exact absurd (cycles_of_reaches hs hc le_rfl ht) h
  · exact ⟨o, ho⟩

/-- The engine returns exactly if it never comes back to a basis in the same phase; then it needs no
more turns than there are bases. -/
theorem solveCanonical_returns_iff {p : Program Rat} (hs : p.Stored) (hc : p.isCanonical = true) :
    ((∃ limit o, solveCanonical limit p = .ok o) ↔ ¬ Cycles p) ∧
      (¬ Cycles p → ∃ o, solveCanonical (basisCount p) p = .ok o) := by
  refine ⟨⟨?_, fun h => ⟨_, returns_of_not_cycles hs hc h⟩⟩, returns_of_not_cycles hs hc⟩
  rintro ⟨limit, o, ho⟩ hcycles
  rw [never_returns_of_cycles hs hc hcycles limit] at ho
  cases ho

theorem stutter_not_cycles :
    stutter.Stored ∧ stutter.isCanonical = true ∧ ¬ Cycles stutter := by
  have hs : stutter.Stored := by decide
  have hc : stutter.isCanonical = true := by decide
  have ho : (solveCanonical 5 stutter).toOption.isSome = true := by decide +kernel
  refine ⟨hs, hc, (solveCanonical_returns_iff hs hc).1.mp ⟨5, ?_⟩⟩
  cases h : solveCanonical 5 stutter with
  | ok o => exact ⟨o, rfl⟩
  | error f =>
    rw [h] at ho
    cases ho

/-! ## A program without an end -/

/-- Six variables in two rows whose right-hand sides are zero, so that no exchange changes a
value. -/
def carousel : Program Rat where
  sense := .minimize
  columns := [
    ⟨.nonnegative, 0, [(1, 1)]⟩,
    ⟨.nonnegative, -4, [(0, 1), (1, 3)]⟩,
    ⟨.nonnegative, 1, [(0, -1), (1, -2)]⟩,
    ⟨.nonnegative, -6, [(0, -2), (1, -3)]⟩,
    ⟨.nonnegative, 6, [(0, 1), (1, 1)]⟩,
    ⟨.nonnegative, 0, [(0, 1)]⟩]
  rows := [⟨0, 0⟩, ⟨0, 0⟩]

/-- The phase and the basis after a number of turns. -/
def State.basisAfter (s : State Rat) (n : Nat) : Option (Phase × List Nat) :=
  (s.stateAfter n).map fun t => (t.phase, t.basis)

/-- Phase two starts after three turns, and six turns later the basis is the same again. -/
theorem carousel_cycles : Cycles carousel := by
  have hfirst : (initial carousel).basisAfter 3 = some (.two, [1, 0]) := by decide +kernel
  have hsecond : (initial carousel).basisAfter (3 + 6) = some (.two, [1, 0]) := by decide +kernel
  obtain ⟨t, ht, htb⟩ := Option.map_eq_some_iff.mp hfirst
  obtain ⟨u, hu, hub⟩ := Option.map_eq_some_iff.mp hsecond
  have ht := reaches_iff_stateAfter.mpr ht
  obtain ⟨v, hv, hvu⟩ := reaches_add.mp (reaches_iff_stateAfter.mpr hu)
  obtain rfl := hv.unique ht
  have hsame := Prod.mk.inj (htb.trans hub.symm)
  exact ⟨_, _, _, 3, 6, start_eq (by decide), ht, hvu, by decide, hsame.1, hsame.2⟩

theorem carousel_never_returns : carousel.Stored ∧ carousel.isCanonical = true ∧
    ∀ limit, solveCanonical limit carousel = .error .stepLimit := by
  have hs : carousel.Stored := by decide
  have hc : carousel.isCanonical = true := by decide
  exact ⟨hs, hc, never_returns_of_cycles hs hc carousel_cycles⟩

end LinearProgramming.Simplex
