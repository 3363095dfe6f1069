import LinearProgramming.Proofs.Simplex.Rank

/-!
# Vertices

The engine ends in a vertex of the solutions, however many optima there are and whatever rows were
dropped on the way: the basis is invertible on the rows that are left, so its columns are
independent on all rows.

* `Program.Vertex`: a solution for which the columns of the variables that are not zero are
  independent.
* `Program.Vertex.card_le_rank`: no more variables than the matrix has rank are not zero.
* `Program.Vertex.eq_of_between`: a vertex lies between no two other solutions.
* `State.Invariant.vertex`: the point of a basis in phase two is a vertex.
* `solveCanonical_vertex`: so is every optimum that the engine returns.
-/

namespace LinearProgramming

open Finset

/-! ## Vertices of the solutions -/

namespace Program

variable {p : Program Rat} {x y z : List Rat}

/-- The variables that are not zero at a point. -/
def support (p : Program Rat) (x : List Rat) : Set (Fin p.variableCount) := {v | coord x v ≠ 0}

/-- The point solves the program, and the columns of its support are independent. -/
structure Vertex (p : Program Rat) (x : List Rat) : Prop where
  solves : p.Solves x
  independent : LinearIndepOn Rat p.matrix.col (p.support x)

theorem Solves.leftSide_eq (hx : p.Solves x) (hy : p.Solves y) (r : Fin p.rowCount) :
    p.leftSide (coord x) r = p.leftSide (coord y) r := by
  have hb := List.getElem?_eq_getElem (show (r : Nat) < p.rows.length from r.isLt)
  rw [hx.rows r _ hb, hy.rows r _ hb]

/-- The difference of two solutions is a relation between the columns. -/
theorem Solves.sum_sub (hx : p.Solves x) (hy : p.Solves y) :
    ∑ v : Fin p.variableCount, (coord x v - coord y v) • p.matrix.col v = 0 := by
  funext r
  have hrow := hx.leftSide_eq hy r
  rw [p.leftSide_eq_dotProduct, p.leftSide_eq_dotProduct, ← sub_eq_zero, ← dotProduct_sub] at hrow
  rw [Pi.zero_apply, ← hrow, Finset.sum_apply, dotProduct]
  exact Finset.sum_congr rfl fun v _ => mul_comm _ _

namespace Vertex

/-- A vertex is the only solution with its support, or with less. -/
theorem eq_of_support_subset (hx : p.Vertex x) (hy : p.Solves y) (h : p.support y ⊆ p.support x) :
    y = x := by
  classical
  let s : Finset (Fin p.variableCount) := {v | v ∈ p.support x}
  have hzero : ∀ v ∉ s, (coord x v - coord y v) • p.matrix.col v = 0 := by
    intro v hv
    have hvx : v ∉ p.support x := by simpa [s] using hv
    have hvy : v ∉ p.support y := fun hmem => hvx (h hmem)
    rw [not_not.mp hvx, not_not.mp hvy, sub_zero, zero_smul]
  -- the relation between all columns is one between those of the support
  have hsum : ∑ v ∈ s, (coord x v - coord y v) • p.matrix.col v = 0 := by
    rw [Finset.sum_subset (Finset.subset_univ s) fun v _ hv => hzero v hv]
    exact hx.solves.sum_sub hy
  have hs : (s : Set (Fin p.variableCount)) ⊆ p.support x := by simp [s]
  have hcoord := linearIndepOn_iff'.mp hx.independent s _ hs hsum
  refine eq_of_coord (hy.length.trans hx.solves.length.symm) fun v hv => ?_
  rw [hy.length] at hv
  by_cases hvs : (⟨v, hv⟩ : Fin p.variableCount) ∈ p.support x
  · exact (sub_eq_zero.mp (hcoord ⟨v, hv⟩ (by simpa [s] using hvs))).symm
  · have hvy : (⟨v, hv⟩ : Fin p.variableCount) ∉ p.support y := fun hmem => hvs (h hmem)
    exact (not_not.mp hvy).trans (not_not.mp hvs).symm

/-- The support of a point between two solutions is made of theirs. -/
theorem support_subset_of_between {t : Rat} (hy : p.Solves y) (hz : p.Solves z) (h0 : 0 < t)
    (h1 : t < 1)
    (h : ∀ v < p.variableCount, coord x v = t * coord y v + (1 - t) * coord z v) :
    p.support y ⊆ p.support x := by
  intro v hv hx
  have hpos : 0 < coord y v := (coord_nonneg hy.nonneg v).lt_of_ne (Ne.symm hv)
  have hrest : 0 ≤ (1 - t) * coord z v :=
    mul_nonneg (sub_nonneg.mpr h1.le) (coord_nonneg hz.nonneg v)
  have hbetween := h v v.isLt
  rw [hx] at hbetween
  linarith [mul_pos h0 hpos]

/-- A vertex lies between no two other solutions. -/
theorem eq_of_between {t : Rat} (hx : p.Vertex x) (hy : p.Solves y) (hz : p.Solves z) (h0 : 0 < t)
    (h1 : t < 1)
    (h : ∀ v < p.variableCount, coord x v = t * coord y v + (1 - t) * coord z v) :
    y = x ∧ z = x := by
  have hswap : ∀ v < p.variableCount,
      coord x v = (1 - t) * coord z v + (1 - (1 - t)) * coord y v := by
    intro v hv
    rw [h v hv]
    ring
  exact ⟨hx.eq_of_support_subset hy (support_subset_of_between hy hz h0 h1 h),
    hx.eq_of_support_subset hz
      (support_subset_of_between hz hy (sub_pos.mpr h1) (by linarith) hswap)⟩

theorem card_le_rank (h : p.Vertex x) : (p.support x).ncard ≤ p.matrix.rank := by
  classical
  have hspan : Submodule.span Rat (Set.range fun v : p.support x => p.matrix.col v) ≤
      Submodule.span Rat (Set.range p.matrix.col) := by
    refine Submodule.span_mono ?_
    rintro _ ⟨v, rfl⟩
    exact ⟨v, rfl⟩
  calc (p.support x).ncard = Fintype.card (p.support x) := by
        rw [← Nat.card_coe_set_eq, Nat.card_eq_fintype_card]
    _ = Module.finrank Rat
          (Submodule.span Rat (Set.range fun v : p.support x => p.matrix.col v)) :=
        (finrank_span_eq_card h.independent).symm
    _ ≤ Module.finrank Rat (Submodule.span Rat (Set.range p.matrix.col)) :=
        Submodule.finrank_mono hspan
    _ = p.matrix.rank := p.matrix.rank_eq_finrank_span_cols.symm

end Vertex

end Program

namespace Simplex

/-! ## Points of a basis -/

namespace State.Invariant

variable {p : Program Rat} {kept : List Nat} {t : State Rat}

/-- The columns of the basis are independent on the kept rows, and so on all rows. -/
theorem columns_independent (h : t.Invariant p kept) (hp : t.phase = .two) :
    LinearIndependent Rat fun i => p.matrix.col (h.basicVariable hp i) := by
  have hunit : IsUnit t.basisMatrix := IsUnit.of_mul_eq_one_right _ h.inverse_mul_basis
  have hcols := Matrix.linearIndependent_cols_of_isUnit hunit
  rw [h.basisMatrix_eq hp] at hcols
  exact LinearIndependent.of_comp (LinearMap.funLeft Rat Rat h.position) hcols

/-- Only basic variables are not zero. -/
theorem support_subset (h : t.Invariant p kept) (hp : t.phase = .two) :
    p.support (t.values.take p.variableCount) ⊆ Set.range (h.basicVariable hp) := by
  intro v hv
  have hvalue : t.value v ≠ 0 := by rwa [← t.coord_take v.isLt]
  by_contra hout
  refine hvalue (h.solved.other_value v fun i hi e => hout ⟨⟨i, hi⟩, Fin.ext e⟩)

/-- The point that the basis stands for is a vertex. -/
theorem vertex (h : t.Invariant p kept) (hp : t.phase = .two) :
    p.Vertex (t.values.take p.variableCount) where
  solves := h.solves_of_meets (h.solved.meets h.nonneg (h.clear hp)) (take_length h)
    fun _ hj => t.coord_take hj
  independent := by
    have hcols := h.columns_independent hp
    exact ((linearIndepOn_range_iff hcols.injective.of_comp _).mpr hcols).mono (h.support_subset hp)

end State.Invariant

/-! ## Optima of the engine -/

/-- Where a run stops with an optimum, its values are a vertex. -/
theorem State.Run.Sound.vertex {p : Program Rat} {last : State Rat} {events : List Event}
    (h : (State.Run.finished .optimal last events).Sound p) :
    p.Vertex (last.values.take p.variableCount) := by
  obtain ⟨kept, event, hinv, m⟩ := h
  cases m with
  | optimal hp _ => exact hinv.vertex hp

/-- An optimum that the engine returns is a vertex: it solves the program, the columns of the
variables that are not zero are independent, of which there are no more than the matrix has rank,
and it lies between no two other solutions. -/
theorem solveCanonical_vertex {p : Program Rat} (hs : p.Stored) (hc : p.isCanonical = true)
    {limit : Nat} {o : Outcome Rat} (ho : solveCanonical limit p = .ok o)
    (hopt : o.status = .optimal) :
    p.Vertex o.values ∧ (p.support o.values).ncard ≤ p.matrix.rank ∧
      ∀ (y z : List Rat) (t : Rat), p.Solves y → p.Solves z → 0 < t → t < 1 →
        (∀ v < p.variableCount, coord o.values v = t * coord y v + (1 - t) * coord z v) →
          y = o.values ∧ z = o.values := by
  obtain ⟨r, hr, hsound⟩ := runCanonical_ok hs hc limit
  have hvertex : p.Vertex o.values := by
    unfold solveCanonical at ho
    rw [hr] at ho
    cases r with
    | cut => cases ho
    | finished status last events =>
      cases ho
      dsimp only at hopt
      subst hopt
      exact hsound.vertex
  exact ⟨hvertex, hvertex.card_le_rank, fun y z t hy hz h0 h1 h =>
    hvertex.eq_of_between hy hz h0 h1 h⟩

/-- Two variables of the same cost whose sum is 2, stated twice. All solutions are optima. -/
def edge : Program Rat where
  sense := .minimize
  columns := [⟨.nonnegative, 1, [(0, 1), (1, 2)]⟩, ⟨.nonnegative, 1, [(0, 1), (1, 2)]⟩]
  rows := [⟨2, 2⟩, ⟨4, 4⟩]

theorem edge_solves {t : Rat} (h0 : 0 ≤ t) (h2 : t ≤ 2) : edge.Solves [t, 2 - t] := by
  have hleft : ∀ r, edge.leftSide (coord [t, 2 - t]) r =
      coord (edge.columns.map fun c => c.coefficient r) 0 * t +
        coord (edge.columns.map fun c => c.coefficient r) 1 * (2 - t) := fun r => by
    simp [Program.leftSide, weigh, edge, Finset.sum_range_succ]
  refine ⟨rfl, by simp [h0, h2], ?_⟩
  rintro (_ | _ | r) b hb
  · obtain rfl := Option.some.inj hb
    rw [hleft]
    change 1 * t + 1 * (2 - t) = 2
    ring
  · obtain rfl := Option.some.inj hb
    rw [hleft]
    change 2 * t + 2 * (2 - t) = 4
    ring
  · cases hb

/-- The second row is dropped and one end of the edge is returned. Its middle costs the same, and is
no vertex. -/
theorem edge_end : edge.Stored ∧ edge.isCanonical = true ∧
    ∃ o, solveCanonical 5 edge = .ok o ∧ o.status = .optimal ∧ o.values = [2, 0] ∧
      edge.Vertex o.values ∧ edge.Solves [1, 1] ∧
        edge.objective [1, 1] = edge.objective o.values ∧ ¬ edge.Vertex [1, 1] := by
  have hs : edge.Stored := by decide
  have hc : edge.isCanonical = true := by decide
  have ho : solveCanonical 5 edge = .ok ⟨.optimal, [2, 0],
      [.phaseOne 2 2, .pivot 0 0 2 0, .redundant 1, .phaseTwo 1, .optimal 1]⟩ := by
    decide +kernel
  have hvertex := (solveCanonical_vertex hs hc ho rfl).1
  have hmiddle : edge.Solves [1, 1] := by
    have h := edge_solves (t := 1) (by norm_num) (by norm_num)
    norm_num at h
    exact h
  have hfar : edge.Solves [0, 2] := by
    have h := edge_solves (t := 0) le_rfl (by norm_num)
    norm_num at h
    exact h
  have hbetween : ∀ v < edge.variableCount,
      coord [1, 1] v = 1 / 2 * coord [2, 0] v + (1 - 1 / 2) * coord [0, 2] v := by decide +kernel
  refine ⟨hs, hc, _, ho, rfl, rfl, hvertex, hmiddle, by decide +kernel, fun h => ?_⟩
  obtain ⟨heq, -⟩ := h.eq_of_between hvertex.solves hfar (by norm_num) (by norm_num) hbetween
  exact absurd heq (by decide)

end Simplex

end LinearProgramming
