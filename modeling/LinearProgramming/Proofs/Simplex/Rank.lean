import Mathlib.Data.Matrix.ColumnRowPartitioned
import Mathlib.LinearAlgebra.Matrix.Dual
import Mathlib.LinearAlgebra.Matrix.Rank
import LinearProgramming.Proofs.Coefficients
import LinearProgramming.Proofs.Simplex.Consistency
import LinearProgramming.Proofs.Simplex.Safety

/-!
# Rows that are redundant

The end of phase one keeps as many rows of a program as its matrix has rank. The basis that is left
has variables of the program only, so the kept rows are independent; and the point that it stands
for solves all rows, so that a row which follows from the kept ones is a combination of them.

* `mem_span_of_follows`: what vanishes wherever some vectors do is a combination of them.
* `Trimmed`: what is left of a program, its matrix and the state after phase one.
* `State.Invariant.independent`, `State.Invariant.spanned`, `State.Invariant.rank_eq`: the kept rows
  in phase two.
* `phaseOne_trims`: the end of phase one.
-/

namespace LinearProgramming

open Finset

/-! ## Matrices of programs -/

namespace Program

variable (p : Program Rat)

/-- The coefficients, row by row. -/
def matrix : Matrix (Fin p.rowCount) (Fin p.variableCount) Rat := .of fun r v => p.cell r v

/-- The coefficients and, last, the right-hand side. -/
def augmented : Matrix (Fin p.rowCount) (Fin p.variableCount ⊕ Unit) Rat :=
  Matrix.fromCols p.matrix (.of fun r _ => p.rhs r)

/-- The rows at some positions. -/
def rowsAt (kept : List Nat) : Set (Fin p.rowCount) := {r | (r : Nat) ∈ kept}

theorem leftSide_eq_dotProduct (x : Nat → Rat) (r : Fin p.rowCount) :
    p.leftSide x r = p.matrix.row r ⬝ᵥ fun v => x v := by
  rw [leftSide, weigh, List.length_map, dotProduct, ← variableCount, Finset.sum_range]
  apply Finset.sum_congr rfl
  intro v _
  have hv : v < p.columns.length := v.isLt
  simp [coord, matrix, cell, hv]

theorem augmented_dotProduct (z : Fin p.variableCount ⊕ Unit → Rat) (r : Fin p.rowCount) :
    p.augmented.row r ⬝ᵥ z = (p.matrix.row r ⬝ᵥ fun v => z (.inl v)) + p.rhs r * z (.inr ()) := by
  simp [augmented, dotProduct, Matrix.fromCols]

end Program

/-- What vanishes wherever some vectors do is a combination of them. -/
theorem mem_span_of_follows {ι κ : Type} [Fintype κ] [DecidableEq κ] {rows : ι → κ → Rat}
    {w : κ → Rat} (h : ∀ z, (∀ i, rows i ⬝ᵥ z = 0) → w ⬝ᵥ z = 0) :
    w ∈ Submodule.span Rat (Set.range rows) := by
  have hdual : dotProductEquiv Rat κ w ∈
      Submodule.span Rat (Set.range fun i => dotProductEquiv Rat κ (rows i)) := by
    refine FiniteDimensional.mem_span_of_iInf_ker_le_ker fun z hz => ?_
    rw [Submodule.mem_iInf] at hz
    exact h z hz
  rw [Set.range_comp' (dotProductEquiv Rat κ) rows, ← LinearEquiv.coe_coe,
    ← Submodule.map_span] at hdual
  rw [Submodule.mem_map_equiv, LinearEquiv.coe_coe, LinearEquiv.symm_apply_apply] at hdual
  exact hdual

namespace Simplex

namespace State.Invariant

variable {p : Program Rat} {kept : List Nat} {s t : State Rat}

/-! ## Rows in phase two -/

/-- The position of a row that is left. -/
def position (h : t.Invariant p kept) (q : Fin t.rowCount) : Fin p.rowCount :=
  ⟨kept.getD q 0, h.inside _ (getD_mem (h.rowCount ▸ q.isLt) 0)⟩

theorem range_position (h : t.Invariant p kept) : Set.range h.position = p.rowsAt kept := by
  ext r
  simp only [Set.mem_range]
  constructor
  · rintro ⟨q, rfl⟩
    exact getD_mem (h.rowCount ▸ q.isLt) 0
  · intro hr
    obtain ⟨q, hq, heq⟩ := List.getElem_of_mem hr
    exact ⟨⟨q, h.rowCount ▸ hq⟩, Fin.ext (by simpa [position, hq] using heq)⟩

theorem position_injective (h : t.Invariant p kept) : Function.Injective h.position := by
  intro q r heq
  have hq : (q : Nat) < kept.length := h.rowCount ▸ q.isLt
  have hr : (r : Nat) < kept.length := h.rowCount ▸ r.isLt
  have hnodup : kept.Nodup := h.sorted.imp fun hlt => hlt.ne
  have hval := congrArg Fin.val heq
  simp only [position, List.getD_eq_getElem _ _ hq, List.getD_eq_getElem _ _ hr] at hval
  exact Fin.ext (hnodup.getElem_inj_iff.mp hval)

theorem coord_column (h : t.Invariant p kept) (v : Fin p.variableCount) (q : Fin t.rowCount) :
    coord (t.column v) q = p.matrix (h.position q) v := by
  have hv : (v : Nat) < p.columns.length := v.isLt
  have hq : (q : Nat) < kept.length := h.rowCount ▸ q.isLt
  simp [column, h.columns, coord, Program.matrix, Program.cell, position, hv, hq]

/-- The basic variable of a row in phase two. -/
def basicVariable (h : t.Invariant p kept) (hp : t.phase = .two) (i : Fin t.rowCount) :
    Fin p.variableCount := ⟨(t.row i).basic, h.variableCount ▸ h.basics hp i i.isLt⟩

/-- The basis consists of columns of the kept rows. -/
theorem basisMatrix_eq (h : t.Invariant p kept) (hp : t.phase = .two) :
    t.basisMatrix = p.matrix.submatrix h.position (h.basicVariable hp) := by
  ext q i
  rw [basisMatrix, Matrix.of_apply, if_pos (h.basics hp i i.isLt)]
  exact h.coord_column (h.basicVariable hp i) q

/-- The kept rows are independent already in the columns of the basis. -/
theorem linearIndependent (h : t.Invariant p kept) (hp : t.phase = .two) :
    LinearIndependent Rat fun q => p.matrix.row (h.position q) := by
  have hunit : IsUnit t.basisMatrix := IsUnit.of_mul_eq_one_right _ h.inverse_mul_basis
  have hrows := Matrix.linearIndependent_rows_of_isUnit hunit
  rw [h.basisMatrix_eq hp] at hrows
  exact LinearIndependent.of_comp (LinearMap.funLeft Rat Rat (h.basicVariable hp)) hrows

theorem independent (h : t.Invariant p kept) (hp : t.phase = .two) :
    LinearIndepOn Rat p.matrix.row (p.rowsAt kept) := by
  rw [← h.range_position, linearIndepOn_range_iff h.position_injective]
  exact h.linearIndependent hp

/-- The point that the basis stands for solves all rows. -/
theorem solves_value (h : t.Invariant p kept) (hp : t.phase = .two) :
    ∀ k < p.rowCount, p.leftSide t.value k = p.rhs k :=
  ((h.meets_iff t.value).mp (h.solved.meets h.nonneg (h.clear hp))).2

/-- The line through the point of the basis on which a combination of the columns is added to the
right-hand sides. -/
def line (t : State Rat) {n : Nat} (z : Fin n ⊕ Unit → Rat) (v : Nat) : Rat :=
  (1 + z (.inr ())) * t.value v + if hv : v < n then z (.inl ⟨v, hv⟩) else 0

theorem leftSide_line (h : t.Invariant p kept) (hp : t.phase = .two)
    (z : Fin p.variableCount ⊕ Unit → Rat) (r : Fin p.rowCount) :
    p.leftSide (line t z) r = p.rhs r + p.augmented.row r ⬝ᵥ z := by
  have hvalue := h.solves_value hp r r.isLt
  rw [p.leftSide_eq_dotProduct] at hvalue
  have hline : (fun v : Fin p.variableCount => line t z v) =
      (1 + z (.inr ())) • (fun v : Fin p.variableCount => t.value v) + fun v => z (.inl v) := by
    funext v
    simp [line]
  rw [p.leftSide_eq_dotProduct, hline, dotProduct_add, dotProduct_smul, hvalue,
    p.augmented_dotProduct, smul_eq_mul]
  ring

/-- Every row is a combination of the kept ones, right-hand sides included: it holds wherever they
do, along each line through the point of the basis. -/
theorem spanned (h : t.Invariant p kept) (hp : t.phase = .two) (r : Fin p.rowCount) :
    p.augmented.row r ∈ Submodule.span Rat (p.augmented.row '' p.rowsAt kept) := by
  rw [← h.range_position, ← Set.range_comp]
  refine mem_span_of_follows fun z hz => ?_
  have hkept : ∀ k ∈ kept, p.leftSide (line t z) k = p.rhs k := by
    intro k hk
    have hmem : (⟨k, h.inside k hk⟩ : Fin p.rowCount) ∈ p.rowsAt kept := hk
    rw [← h.range_position] at hmem
    obtain ⟨q, hq⟩ := hmem
    have hline := h.leftSide_line hp z (h.position q)
    rw [show p.augmented.row (h.position q) ⬝ᵥ z = 0 from hz q, add_zero, hq] at hline
    exact hline
  have hall := h.complete (line t z) hkept r r.isLt
  rw [h.leftSide_line hp] at hall
  linarith

/-- A row without its right-hand side is the same combination. -/
theorem matrix_spanned (h : t.Invariant p kept) (hp : t.phase = .two) (r : Fin p.rowCount) :
    p.matrix.row r ∈ Submodule.span Rat (p.matrix.row '' p.rowsAt kept) := by
  have hmap := Submodule.mem_map_of_mem (f := LinearMap.funLeft Rat Rat
    (Sum.inl : Fin p.variableCount → Fin p.variableCount ⊕ Unit)) (h.spanned hp r)
  rw [Submodule.map_span, ← Set.image_comp] at hmap
  exact hmap

theorem rank_eq (h : t.Invariant p kept) (hp : t.phase = .two) :
    p.matrix.rank = kept.length := by
  have hspan : Submodule.span Rat (Set.range p.matrix.row) =
      Submodule.span Rat (Set.range fun q => p.matrix.row (h.position q)) := by
    apply le_antisymm
    · rw [Submodule.span_le]
      rintro _ ⟨r, rfl⟩
      have hr := h.matrix_spanned hp r
      rw [← h.range_position, ← Set.range_comp] at hr
      exact hr
    · refine Submodule.span_mono ?_
      rintro _ ⟨q, rfl⟩
      exact ⟨h.position q, rfl⟩
  rw [Matrix.rank_eq_finrank_span_row, hspan, finrank_span_eq_card (h.linearIndependent hp),
    Fintype.card_fin, h.rowCount]

end State.Invariant

/-! ## The end of phase one -/

open State

/-- What is left of a program: some of its rows, which are independent and span the others, and a
basis of variables of the program that is solved for. -/
structure Trimmed (p : Program Rat) (kept : List Nat) (t : State Rat) : Prop where
  kept_rows : kept.Sublist (List.range p.rowCount)
  columns : t.columns = p.columns.map fun c => kept.map c.coefficient
  rowCount : t.rowCount = kept.length
  independent : LinearIndepOn Rat p.matrix.row (p.rowsAt kept)
  rank : p.matrix.rank = kept.length
  spanned : ∀ r, p.augmented.row r ∈ Submodule.span Rat (p.augmented.row '' p.rowsAt kept)
  solutions : ∀ x : Nat → Rat, (∀ k ∈ kept, p.leftSide x k = p.rhs k) ↔
    ∀ k < p.rowCount, p.leftSide x k = p.rhs k
  structural : ∀ v ∈ t.basis, v < p.variableCount
  inverse_square : ∀ r ∈ t.rows, r.inverse.length = t.rowCount
  inverse : t.inverseMatrix * t.basisMatrix = 1 ∧ t.basisMatrix * t.inverseMatrix = 1

/-- In phase two the program is trimmed. -/
theorem State.Invariant.trimmed {p : Program Rat} {kept : List Nat} {t : State Rat}
    (h : t.Invariant p kept) (hp : t.phase = .two) : Trimmed p kept t where
  kept_rows := h.rows_kept
  columns := h.columns
  rowCount := h.rowCount
  independent := h.independent hp
  rank := h.rank_eq hp
  spanned := h.spanned hp
  solutions x := ⟨h.complete x, fun hx k hk => hx k (h.inside k hk)⟩
  structural := h.consistent.structural hp
  inverse_square := h.solved.shaped.inverses
  inverse := ⟨h.inverse_mul_basis, mul_eq_one_comm.mp h.inverse_mul_basis⟩

/-- The end of phase one fails nowhere. There is no phase two exactly if the artificial variables
have a positive sum, and then no point solves the program. Otherwise the exchanges that take
artificial variables out of the basis change no value, and the program is trimmed to the rows that
they keep. -/
theorem phaseOne_trims {p : Program Rat} (hs : p.Stored) (hc : p.isCanonical = true)
    {start s : State Rat} {n : Nat} (hstart : State.start p = .ok start) (hr : Reaches n start s)
    (hp : s.phase = .one) (he : s.entering? = .ok none) :
    (∃ result, s.finishPhaseOne = .ok result) ∧
    (s.finishPhaseOne = .ok none ↔ 0 < s.artificialSum) ∧
    (0 < s.artificialSum → ∀ x, ¬ p.Solves x) ∧
    ∀ t events, s.finishPhaseOne = .ok (some (t, events)) →
      (∃ c, s.cleanupAfter s.rowCount = .ok c ∧ Trimmed p (positions c.keep) t) ∧
      (∀ v, t.value v = s.value v) ∧
      ∀ k ≤ s.rowCount, ∃ c, s.cleanupAfter k = .ok c ∧ ∀ v, c.state.value v = s.value v := by
  obtain rfl := Except.ok.inj ((start_eq hs).symm.trans hstart)
  obtain ⟨rest, hinv⟩ := hr.exists_invariant (initial_invariant (lower_nonneg hc))
  have hsettled : s.Settled := fun j => hinv.solved.shaped.entering?_eq_none he
  have hempty : 0 < s.artificialSum → ∀ x, ¬ p.Solves x := fun ha => unsolvable hinv hp hsettled ha
  rcases finishPhaseOne_ok hinv.solved hinv.nonneg with ⟨ha, hf⟩ | ⟨t, events, c, hf, hz, hc, hred⟩
  · refine ⟨⟨_, hf⟩, iff_of_true hf ha, hempty, fun t events ht => ?_⟩
    rw [hf] at ht
    cases ht
  · have hsum : ¬ 0 < s.artificialSum := by
      rw [artificialSum_eq, Finset.sum_eq_zero fun v _ => hz _ (Nat.le_add_right ..)]
      exact lt_irrefl 0
    refine ⟨⟨_, hf⟩, iff_of_false (by rw [hf]; nofun) hsum, hempty, fun u later hu => ?_⟩
    obtain ⟨rfl, -⟩ := Prod.mk.inj (Option.some.inj (Except.ok.inj (hf.symm.trans hu)))
    have htrimmed := (hinv.reduction hp hred).trimmed hred.phase
    refine ⟨⟨c, hc, htrimmed⟩, hred.value, fun k hk => ?_⟩
    obtain ⟨c, hc, hvalid⟩ := Cleanup.looks_ok hz hinv.solved hk
    exact ⟨c, hc, hvalid.value⟩

/-- After one exchange the second row of the program, which is twice the first one, is dropped. -/
theorem stutter_trimmed : stutter.Stored ∧ stutter.isCanonical = true ∧
    ∃ start s t events c, State.start stutter = .ok start ∧ Reaches 1 start s ∧
      s.phase = .one ∧ s.entering? = .ok none ∧ s.finishPhaseOne = .ok (some (t, events)) ∧
        t.basis = [0] ∧ s.cleanupAfter s.rowCount = .ok c ∧ Trimmed stutter (positions c.keep) t ∧
          (positions c.keep).length = 1 := by
  have hs : stutter.Stored := by decide
  have hc : stutter.isCanonical = true := by decide
  let s : State Rat := ⟨[[1, 2], [1, 2]], [1, 3], [⟨0, 0, [1, 0]⟩, ⟨3, 1, [-2, 1]⟩],
    [true, false, false, true], [2, 0, 0, 0], .one, 1⟩
  let t : State Rat := ⟨[[1], [1]], [1, 3], [⟨0, 1, [1]⟩], [true, false, false, true],
    [2, 0, 0, 0], .two, 1⟩
  have hs' : (initial stutter).stateAfter 1 = some s := by decide +kernel
  have hreach := reaches_iff_stateAfter.mpr hs'
  have he : s.entering? = .ok none := by decide +kernel
  have hf : s.finishPhaseOne = .ok (some (t, [.redundant 1, .phaseTwo 1])) := by decide +kernel
  obtain ⟨-, -, -, htrim⟩ := phaseOne_trims hs hc (start_eq hs) hreach rfl he
  obtain ⟨⟨c, hclean, hkept⟩, -, -⟩ := htrim t _ hf
  exact ⟨hs, hc, _, s, t, _, c, start_eq hs, hreach, rfl, he, hf, rfl, hclean, hkept,
    hkept.rowCount.symm⟩

end Simplex

end LinearProgramming
