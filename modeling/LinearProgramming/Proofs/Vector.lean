import LinearProgramming.Scalar.Exact
import LinearProgramming.Simplex.Vector
import Mathlib.Algebra.BigOperators.Ring.Finset
import Mathlib.Algebra.Order.BigOperators.Group.Finset
import Mathlib.Algebra.Order.Field.Rat
import Mathlib.Data.List.GetD
import Mathlib.Tactic.Linarith
import Mathlib.Tactic.Ring

/-!
# Exact vectors

What checked operations come to over the rationals, where nothing is rounded:

* `bind_ok`: what is done one after the other succeeds in both parts, if it does as a whole;
* `mapM_eq_ok`, `findM?_eq_ok`: a loop in which no step goes wrong is the loop
  without checks, and `foldlM_ok` one that keeps an invariant;
* `coord`: the coordinates of a vector, of which it has infinitely many, almost all zero;
* `dot_eq_ok`, `sum_coord`: products and sums as sums over coordinates.
-/

namespace LinearProgramming

open Finset

/-! ## Loops without a fault -/

theorem bind_eq {ε α β : Type} {x : Except ε α} {a : α} (h : x = .ok a) (f : α → Except ε β) :
    (x >>= f) = f a := by
  rw [h]
  rfl

theorem bind_ok {ε α β : Type} {x : Except ε α} {f : α → Except ε β} {b : β}
    (h : (x >>= f) = .ok b) : ∃ a, x = .ok a ∧ f a = .ok b := by
  cases hx : x with
  | error r =>
    rw [hx] at h
    cases h
  | ok a => exact ⟨a, rfl, bind_eq hx f ▸ h⟩

theorem mapM_eq_ok {ε α β : Type} {f : α → Except ε β} {g : α → β} {xs : List α}
    (h : ∀ x ∈ xs, f x = .ok (g x)) : xs.mapM f = .ok (xs.map g) := by
  induction xs with
  | nil => rfl
  | cons x xs ih =>
    rw [List.mapM_cons, h x List.mem_cons_self, ih fun y hy => h y (List.mem_cons_of_mem x hy)]
    rfl

theorem length_mapM_ok {ε α β : Type} {f : α → Except ε β} {xs : List α} {ys : List β}
    (h : xs.mapM f = .ok ys) : ys.length = xs.length := by
  induction xs generalizing ys with
  | nil =>
    cases h
    rfl
  | cons x rest ih =>
    rw [List.mapM_cons] at h
    obtain ⟨y, -, h⟩ := bind_ok h
    obtain ⟨zs, hzs, h⟩ := bind_ok h
    cases h
    rw [List.length_cons, List.length_cons, ih hzs]

theorem findM?_eq_ok {ε α : Type} {f : α → Except ε Bool} {g : α → Bool} {xs : List α}
    (h : ∀ x ∈ xs, f x = .ok (g x)) : xs.findM? f = .ok (xs.find? g) := by
  induction xs with
  | nil => rfl
  | cons x xs ih =>
    have tail := ih fun y hy => h y (List.mem_cons_of_mem x hy)
    simp only [List.findM?, h x List.mem_cons_self, List.find?_cons, tail]
    cases g x <;> rfl

/-- A loop of which each turn succeeds and keeps an invariant. -/
theorem foldlM_ok {ε α β : Type} (f : β → α → Except ε β) (xs : List α) (b : β)
    (I : Nat → β → Prop) (h0 : I 0 b)
    (step : ∀ i (h : i < xs.length) b, I i b → ∃ b', f b xs[i] = .ok b' ∧ I (i + 1) b') :
    ∃ b', xs.foldlM f b = .ok b' ∧ I xs.length b' := by
  induction xs generalizing b I with
  | nil => exact ⟨b, rfl, h0⟩
  | cons x xs ih =>
    obtain ⟨c, hc, h1⟩ := step 0 (Nat.succ_pos _) b h0
    obtain ⟨d, hd, hn⟩ := ih c (fun i => I (i + 1)) h1
      fun i hi e he => step (i + 1) (Nat.succ_lt_succ hi) e he
    refine ⟨d, ?_, hn⟩
    rw [List.foldlM_cons, show f b x = .ok c from hc]
    exact hd

theorem fetch_eq_ok {α : Type} {xs : List α} {i : Nat} (h : i < xs.length) :
    fetch xs i = .ok xs[i] := by
  simp [fetch, h]

theorem assign_eq_ok {α : Type} {xs : List α} {i : Nat} (x : α) (h : i < xs.length) :
    assign xs i x = .ok (xs.set i x) := by
  simp [assign, h]

theorem getD_mem {α : Type} {xs : List α} {i : Nat} (h : i < xs.length) (d : α) :
    xs.getD i d ∈ xs := by
  rw [List.getD_eq_getElem _ _ h]
  exact List.getElem_mem h

/-! ## Exact numbers -/

@[simp]
theorem below_eq (x y : Rat) : Scalar.below x y = decide (x < y) := by
  simp only [Scalar.below, Scalar.atMost, Scalar.less, Scalar.near, ← Bool.decide_or,
    ← decide_not, ← le_iff_lt_or_eq, not_le]

theorem divide_eq_ok (x : Rat) {y : Rat} (h : y ≠ 0) : divide x y = .ok (x / y) := by
  simp [divide, Scalar.quotient?, Scalar.same, h]

/-! ## Coordinates -/

/-- The coordinate at a position, zero beyond the end. -/
def coord (xs : List Rat) (i : Nat) : Rat := xs.getD i 0

theorem coord_of_lt {xs : List Rat} {i : Nat} (h : i < xs.length) : coord xs i = xs[i] := by
  simp [coord, h]

theorem coord_of_le {xs : List Rat} {i : Nat} (h : xs.length ≤ i) : coord xs i = 0 := by
  simp [coord, h]

@[simp]
theorem coord_nil (i : Nat) : coord [] i = 0 := rfl

@[simp]
theorem coord_cons_zero (x : Rat) (xs : List Rat) : coord (x :: xs) 0 = x := rfl

@[simp]
theorem coord_cons_succ (x : Rat) (xs : List Rat) (i : Nat) :
    coord (x :: xs) (i + 1) = coord xs i := rfl

theorem coord_append (xs ys : List Rat) (i : Nat) :
    coord (xs ++ ys) i = if i < xs.length then coord xs i else coord ys (i - xs.length) := by
  split
  · next h => simp [coord, List.getElem?_append_left h]
  · next h => simp [coord, List.getElem?_append_right (Nat.le_of_not_lt h)]

theorem coord_map {α : Type} (f : α → Rat) (xs : List α) {i : Nat} (h : i < xs.length) :
    coord (xs.map f) i = f xs[i] := by
  simp [coord, h]

theorem coord_set (xs : List Rat) (i : Nat) (x : Rat) (k : Nat) :
    coord (xs.set i x) k = if i = k ∧ i < xs.length then x else coord xs k := by
  simp only [coord, List.getD_eq_getElem?_getD, List.getElem?_set]
  by_cases hk : i = k
  · subst hk
    by_cases hi : i < xs.length <;> simp [hi]
  · simp [hk]

theorem coord_zipWith {α : Type} (f : α → Rat → Rat) (xs : List α) (ys : List Rat) {i : Nat}
    (hx : i < xs.length) (hy : i < ys.length) :
    coord (xs.zipWith f ys) i = f xs[i] (coord ys i) := by
  simp [coord, hx, hy]

theorem coord_nonneg {xs : List Rat} (h : ∀ x ∈ xs, 0 ≤ x) (i : Nat) : 0 ≤ coord xs i := by
  by_cases hi : i < xs.length
  · exact coord_of_lt hi ▸ h _ (List.getElem_mem hi)
  · exact (coord_of_le (by omega)).ge

theorem nonneg_of_coord {xs : List Rat} (h : ∀ i < xs.length, 0 ≤ coord xs i) :
    ∀ x ∈ xs, 0 ≤ x := by
  intro x hx
  obtain ⟨i, hi, rfl⟩ := List.getElem_of_mem hx
  exact coord_of_lt hi ▸ h i hi

/-- Vectors of one length with the same coordinates are equal. -/
theorem eq_of_coord {xs ys : List Rat} (hl : xs.length = ys.length)
    (h : ∀ i < xs.length, coord xs i = coord ys i) : xs = ys := by
  apply List.ext_getElem hl
  intro i hx hy
  have := h i hx
  rwa [coord_of_lt hx, coord_of_lt hy] at this

/-! ## Sums -/

theorem sum_range_congr {n : Nat} {f g : Nat → Rat} (h : ∀ i < n, f i = g i) :
    ∑ i ∈ range n, f i = ∑ i ∈ range n, g i :=
  Finset.sum_congr rfl fun i hi => h i (Finset.mem_range.mp hi)

theorem foldl_add_eq (z : Rat) (xs : List Rat) :
    xs.foldl (· + ·) z = z + ∑ i ∈ range xs.length, coord xs i := by
  induction xs generalizing z with
  | nil => simp
  | cons x xs ih =>
    rw [List.foldl_cons, ih, List.length_cons, Finset.sum_range_succ']
    simp only [coord_cons_succ, coord_cons_zero]
    ring

theorem sum_coord (xs : List Rat) : xs.foldl (· + ·) 0 = ∑ i ∈ range xs.length, coord xs i := by
  simp [foldl_add_eq]

theorem foldl_zip_eq (f : Rat → Rat → Rat) (z : Rat) {xs ys : List Rat}
    (h : xs.length = ys.length) :
    (xs.zip ys).foldl (fun sum t => sum + f t.1 t.2) z =
      z + ∑ k ∈ range xs.length, f (coord xs k) (coord ys k) := by
  induction xs generalizing z ys with
  | nil => simp
  | cons x xs ih =>
    cases ys with
    | nil => simp at h
    | cons y ys =>
      rw [List.zip_cons_cons, List.foldl_cons, ih _ (by simpa using h), List.length_cons,
        Finset.sum_range_succ']
      simp only [coord_cons_succ, coord_cons_zero]
      ring

theorem dot_eq_ok {xs ys : List Rat} (h : xs.length = ys.length) :
    dot xs ys = .ok (∑ k ∈ range xs.length, coord xs k * coord ys k) := by
  rw [dot, foldChecked_eq_ok _ _ _ _ h]
  exact congrArg Except.ok ((foldl_zip_eq (fun x y => x * y) 0 h).trans (zero_add _))

theorem foldChecked_sub_eq_ok (z : Rat) {xs ys : List Rat} (h : xs.length = ys.length) :
    foldChecked (fun rest x y => rest - x * y) z xs ys =
      .ok (z - ∑ k ∈ range xs.length, coord xs k * coord ys k) := by
  rw [foldChecked_eq_ok _ _ _ _ h]
  simp only [sub_eq_add_neg, ← Finset.sum_neg_distrib]
  exact congrArg Except.ok (foldl_zip_eq (fun x y => -(x * y)) z h)

theorem addMultiple_eq_ok {sum xs : List Rat} (factor : Rat) (h : sum.length = xs.length) :
    addMultiple sum factor xs = .ok (sum.zipWith (fun s x => s + factor * x) xs) :=
  zipChecked_eq_ok _ _ _ h

theorem subMultiple_eq_ok {sum xs : List Rat} (factor : Rat) (h : sum.length = xs.length) :
    subMultiple sum factor xs = .ok (sum.zipWith (fun s x => s - factor * x) xs) :=
  zipChecked_eq_ok _ _ _ h

end LinearProgramming
