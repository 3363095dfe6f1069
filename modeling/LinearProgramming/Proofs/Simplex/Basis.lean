import LinearProgramming.Proofs.Simplex.Exchange
import Mathlib.Algebra.BigOperators.Field
import Mathlib.LinearAlgebra.Matrix.NonsingularInverse

/-!
# States that are solved for their basis

`Solved`: the stored inverse is the inverse of the basis, and the values are the right-hand side
expressed in it.

* `Solved.expand`: what is expressed in the basis adds up again, since a left inverse of a square
  matrix is a right inverse;
* `Exchange.solved`: an exchange with a nonzero pivot keeps a state solved.
-/

namespace LinearProgramming.Simplex

open Finset

/-- A left inverse of a square matrix is a right inverse. -/
theorem inverse_comm {m : Nat} {f g : Nat → Nat → Rat}
    (h : ∀ i < m, ∀ r < m, ∑ k ∈ range m, f i k * g k r = if i = r then 1 else 0) :
    ∀ i < m, ∀ r < m, ∑ k ∈ range m, g i k * f k r = if i = r then 1 else 0 := by
  have hmul (f g : Nat → Nat → Rat) :
      ((Matrix.of fun i k : Fin m => f i k) * Matrix.of fun i k : Fin m => g i k) = 1 ↔
        ∀ i < m, ∀ r < m, ∑ k ∈ range m, f i k * g k r = if i = r then 1 else 0 := by
    rw [← Matrix.ext_iff]
    simp only [Matrix.mul_apply, Matrix.of_apply, Matrix.one_apply, Fin.forall_iff, Fin.mk.injEq,
      Finset.sum_range]
  exact (hmul g f).mp (mul_eq_one_comm.mp ((hmul f g).mpr h))

namespace State

/-- The column of any variable; that of an artificial has a single one, in its own row. -/
def fullColumn (s : State Rat) (v k : Nat) : Rat :=
  if v < s.variableCount then coord (s.column v) k
  else if v = s.variableCount + k then 1 else 0

/-- The state is solved for its basis and the right-hand side `b`. -/
structure Solved (s : State Rat) (b : Nat → Rat) : Prop where
  shaped : s.Shaped
  inverse : ∀ i < s.rowCount, ∀ r < s.rowCount,
    s.express (s.fullColumn (s.row r).basic) i = if i = r then 1 else 0
  marked : ∀ j < s.variableCount, s.marked j = true ↔ ∃ i < s.rowCount, (s.row i).basic = j
  own : ∀ i < s.rowCount, s.variableCount ≤ (s.row i).basic →
    (s.row i).basic = s.variableCount + i
  basic_value : ∀ i < s.rowCount, s.value (s.row i).basic = s.express b i
  other_value : ∀ v, (∀ i < s.rowCount, (s.row i).basic ≠ v) → s.value v = 0

/-! ## Expressing vectors in the basis -/

theorem express_sum {ι : Type} (s : State Rat) (u : Finset ι) (f : ι → Nat → Rat) (i : Nat) :
    s.express (fun k => ∑ q ∈ u, f q k) i = ∑ q ∈ u, s.express (f q) i := by
  simp only [express, Finset.mul_sum]
  exact Finset.sum_comm

theorem express_mul (s : State Rat) (a : Rat) (x : Nat → Rat) (i : Nat) :
    s.express (fun k => a * x k) i = a * s.express x i := by
  simp only [express, Finset.mul_sum]
  exact sum_range_congr fun k _ => by ring

theorem express_congr (s : State Rat) {x y : Nat → Rat} (h : ∀ k < s.rowCount, x k = y k)
    (i : Nat) : s.express x i = s.express y i :=
  Finset.sum_congr rfl fun k hk => by rw [h k (Finset.mem_range.mp hk)]

theorem fullColumn_of_lt {s : State Rat} {j : Nat} (hj : j < s.variableCount) :
    s.fullColumn j = coord (s.column j) := by
  funext k
  simp [fullColumn, hj]

/-- The inverse of the basis is the identity. -/
def Diagonal (s : State Rat) : Prop :=
  ∀ i < s.rowCount, ∀ k < s.rowCount, coord (s.row i).inverse k = if i = k then 1 else 0

theorem Diagonal.express {s : State Rat} (h : s.Diagonal) (x : Nat → Rat) {i : Nat}
    (hi : i < s.rowCount) : s.express x i = x i := by
  rw [State.express, Finset.sum_eq_single_of_mem i (Finset.mem_range.mpr hi)]
  · rw [h i hi i hi, if_pos rfl, one_mul]
  · intro k hk hne
    rw [h i hi k (Finset.mem_range.mp hk), if_neg (Ne.symm hne), zero_mul]

namespace Solved

variable {s : State Rat} {b : Nat → Rat}

theorem congr (h : s.Solved b) {a : Nat → Rat} (hb : ∀ q < s.rowCount, a q = b q) :
    s.Solved a where
  shaped := h.shaped
  inverse := h.inverse
  marked := h.marked
  own := h.own
  basic_value i hi := by rw [h.basic_value i hi, s.express_congr hb]
  other_value := h.other_value

/-- A variable is basic in one row at most. -/
theorem basic_injective (h : s.Solved b) {i r : Nat} (hi : i < s.rowCount) (hr : r < s.rowCount)
    (e : (s.row i).basic = (s.row r).basic) : i = r := by
  by_contra hne
  have one := h.inverse i hi i hi
  have zero := h.inverse i hi r hr
  rw [e] at one
  simp_all

theorem sum_basic (h : s.Solved b) (f : Nat → Rat) {r : Nat} (hr : r < s.rowCount) :
    (∑ q ∈ range s.rowCount, if (s.row q).basic = (s.row r).basic then f q else 0) = f r := by
  rw [Finset.sum_eq_single_of_mem r (Finset.mem_range.mpr hr), if_pos rfl]
  intro q hq hne
  exact if_neg fun e => hne (h.basic_injective (Finset.mem_range.mp hq) hr e)

/-- A vector is the combination of the basic columns that it is expressed by. -/
theorem expand (h : s.Solved b) (x : Nat → Rat) {k : Nat} (hk : k < s.rowCount) :
    ∑ r ∈ range s.rowCount, s.fullColumn (s.row r).basic k * s.express x r = x k := by
  have right := inverse_comm (f := fun i k => coord (s.row i).inverse k)
    (g := fun k r => s.fullColumn (s.row r).basic k) h.inverse k hk
  simp only [express, Finset.mul_sum]
  rw [Finset.sum_comm]
  calc ∑ q ∈ range s.rowCount, ∑ r ∈ range s.rowCount,
        s.fullColumn (s.row r).basic k * (coord (s.row r).inverse q * x q)
      = ∑ q ∈ range s.rowCount, (if k = q then 1 else 0) * x q := by
        apply sum_range_congr
        intro q hq
        rw [← right q hq, Finset.sum_mul]
        exact sum_range_congr fun r _ => by ring
    _ = x k := by simp [hk]

/-- The basic columns, taken with the values of their variables, add up to the right-hand side. -/
theorem rows_hold (h : s.Solved b) {k : Nat} (hk : k < s.rowCount) :
    ∑ r ∈ range s.rowCount, s.fullColumn (s.row r).basic k * s.value (s.row r).basic = b k := by
  rw [← h.expand b hk]
  exact sum_range_congr fun r hr => by rw [h.basic_value r hr]

end Solved

/-! ## Exchanges -/

namespace Exchange

variable {s t : State Rat} {i j : Nat} {d : List Rat} {b : Nat → Rat}

theorem variableCount_eq (e : Exchange s t i j d) : t.variableCount = s.variableCount := by
  simp only [variableCount, e.columns]

theorem fullColumn_eq (e : Exchange s t i j d) : t.fullColumn = s.fullColumn := by
  funext v k
  simp only [fullColumn, column, e.variableCount_eq, e.columns]

theorem express_eq (e : Exchange s t i j d) (x : Nat → Rat) {r : Nat} (hr : r < s.rowCount) :
    t.express x r = if r = i then s.express x i / coord d i
      else s.express x r - coord d r * (s.express x i / coord d i) := by
  unfold express
  rw [e.rowCount]
  split
  · next hri =>
    rw [Finset.sum_div]
    apply sum_range_congr
    intro k hk
    rw [e.inverse r hr k hk, if_pos hri]
    ring
  · next hri =>
    rw [Finset.sum_div, Finset.mul_sum, ← Finset.sum_sub_distrib]
    apply sum_range_congr
    intro k hk
    rw [e.inverse r hr k hk, if_neg hri]
    ring

/-- The values after an exchange: the entering variable takes the step, and basic variables follow
the direction. -/
theorem value_basic (e : Exchange s t i j d) (h : s.Solved b) (hu : s.marked j = false)
    (hj : j < s.variableCount) {r : Nat} (hr : r < s.rowCount) :
    t.value (s.row r).basic = s.value (s.row r).basic - s.ratio d i * coord d r := by
  have hne : (s.row r).basic ≠ j := fun eq =>
    absurd ((h.marked j hj).mpr ⟨r, hr, eq⟩) (by simp [hu])
  simp [e.value, hne, h.sum_basic _ hr]

theorem value_other (e : Exchange s t i j d) {v : Nat} (hv : v ≠ j)
    (ho : ∀ r < s.rowCount, (s.row r).basic ≠ v) : t.value v = s.value v := by
  rw [e.value, if_neg hv, Finset.sum_eq_zero, sub_zero]
  intro r hr
  exact if_neg (ho r (Finset.mem_range.mp hr))

/-- The new inverse is the inverse of the new basis. -/
theorem inverse_basis (e : Exchange s t i j d) (h : s.Solved b) (hi : i < s.rowCount)
    (hd : coord d i ≠ 0)
    (hdir : ∀ r < s.rowCount, coord d r = s.express (s.fullColumn j) r) {p q : Nat}
    (hp : p < s.rowCount) (hq : q < s.rowCount) :
    t.express (t.fullColumn (t.row q).basic) p = if p = q then 1 else 0 := by
  rw [e.fullColumn_eq, e.basic q hq, e.express_eq _ hp]
  by_cases hqi : q = i
  · rw [if_pos hqi, ← hdir i hi, ← hdir p hp, hqi, div_self hd, mul_one, sub_self]
  · rw [if_neg hqi, h.inverse i hi q hq, h.inverse p hp q hq, if_neg (Ne.symm hqi), zero_div,
      mul_zero, sub_zero]
    by_cases hpi : p = i
    · rw [if_pos hpi, hpi, if_neg (Ne.symm hqi)]
    · rw [if_neg hpi]

/-- The marks follow the basis. -/
theorem marked_basis (e : Exchange s t i j d) (h : s.Solved b) (hi : i < s.rowCount) {v : Nat}
    (hv : v < s.variableCount) :
    t.marked v = true ↔ ∃ r < s.rowCount, (t.row r).basic = v := by
  rw [e.marked]
  by_cases hvj : v = j
  · rw [if_pos hvj]
    exact ⟨fun _ => ⟨i, hi, by rw [e.basic i hi, if_pos rfl, hvj]⟩, fun _ => rfl⟩
  · rw [if_neg hvj]
    by_cases hvb : v = (s.row i).basic
    · rw [if_pos hvb]
      constructor
      · intro hf
        cases hf
      · rintro ⟨r, hr, hb⟩
        rw [e.basic r hr] at hb
        split at hb
        · exact absurd hb.symm hvj
        · next hri => exact absurd (h.basic_injective hr hi (hb.trans hvb)) hri
    · rw [if_neg hvb, h.marked v hv]
      refine exists_congr fun r => and_congr_right fun hr => ?_
      rw [e.basic r hr]
      split
      · next hri => exact ⟨fun hb => absurd (hri ▸ hb.symm) hvb, fun hb => absurd hb.symm hvj⟩
      · rfl

/-- What is out of the new basis is zero, the variable that left included. -/
theorem value_out (e : Exchange s t i j d) (h : s.Solved b) (hi : i < s.rowCount)
    (hj : j < s.variableCount) (hu : s.marked j = false) (hd : coord d i ≠ 0) {v : Nat}
    (hv : ∀ r < s.rowCount, (t.row r).basic ≠ v) : t.value v = 0 := by
  have hvj : v ≠ j := fun hvj => hv i hi (by rw [e.basic i hi, if_pos rfl, hvj])
  by_cases hvb : (s.row i).basic = v
  · simp only [← hvb, e.value_basic h hu hj hi, ratio, div_mul_cancel₀ _ hd, sub_self]
  · have ho : ∀ r < s.rowCount, (s.row r).basic ≠ v := by
      intro r hr hb
      by_cases hri : r = i
      · exact hvb (hri ▸ hb)
      · exact hv r hr (by rw [e.basic r hr, if_neg hri, hb])
    rw [e.value_other hvj ho, h.other_value v ho]

theorem solved (e : Exchange s t i j d) (h : s.Solved b) (hi : i < s.rowCount)
    (hj : j < s.variableCount) (hu : s.marked j = false) (hd : coord d i ≠ 0)
    (hdir : ∀ r < s.rowCount, coord d r = s.express (coord (s.column j)) r) : t.Solved b := by
  have hm := e.rowCount
  have hn := e.variableCount_eq
  rw [← fullColumn_of_lt hj] at hdir
  refine ⟨e.shaped, ?_, ?_, ?_, ?_, ?_⟩
  · intro p hp q hq
    rw [hm] at hp hq
    exact e.inverse_basis h hi hd hdir hp hq
  · intro v hv
    rw [hn] at hv
    rw [hm]
    exact e.marked_basis h hi hv
  · intro r hr hb
    rw [hm] at hr
    rw [e.basic r hr, hn] at hb ⊢
    split at hb
    · omega
    · next hri =>
      rw [if_neg hri]
      exact h.own r hr hb
  · intro r hr
    rw [hm] at hr
    rw [e.basic r hr, e.express_eq b hr]
    split
    · simp [e.value, ratio, h.basic_value i hi]
    · rw [e.value_basic h hu hj hr, h.basic_value r hr, ratio, h.basic_value i hi]
      ring
  · intro v hv
    rw [hm] at hv
    exact e.value_out h hi hj hu hd hv

end Exchange
end State
end LinearProgramming.Simplex
