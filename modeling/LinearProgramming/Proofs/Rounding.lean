import LinearProgramming.Scalar.Exact
import Mathlib.Algebra.Order.Field.Rat
import Mathlib.Logic.Basic

/-!
# Rounding to doubles

What is left of a rational that is rounded to a double.

* `Binary.value`: the exact value of a double, which changes its sign with it;
* `IsDouble`: the numbers that are doubles, of which nothing is lost;
* `toDouble_sign`: no number changes its sign;
* `Survives`: the numbers that do not become zero, so that their sign can be told.
-/

namespace LinearProgramming

/-! ## Values -/

namespace Binary

/-- The exact value of a finite number. -/
def value (x : Binary) : Rat := x.toRat?.getD 0

theorem value_of_isZero {x : Binary} (h : x.isZero = true) : x.value = 0 := by
  cases x with
  | nan | infinite => rfl
  | finite negative m e =>
    have hm : m = 0 := by simpa [isZero] using h
    cases negative <;> simp [value, toRat?, hm]

theorem isFinite_of_toRat? {x : Binary} {q : Rat} (h : x.toRat? = some q) : x.isFinite = true := by
  cases x with
  | nan | infinite => cases h
  | finite => rfl

@[simp]
theorem isFinite_neg (x : Binary) : x.neg.isFinite = x.isFinite := by cases x <;> rfl

@[simp]
theorem value_neg (x : Binary) : x.neg.value = -x.value := by
  cases x with
  | nan | infinite => exact neg_zero.symm
  | finite negative m e => cases negative <;> simp [neg, value, toRat?]

@[simp]
theorem value_one : one.value = 1 := by decide +kernel

theorem same_self {x : Binary} (h : x.isFinite = true) : x.same x = true := by
  cases x with
  | nan | infinite => cases h
  | finite negative m e => simp [same]

theorem isFinite_eq_of_same {x y : Binary} (h : x.same y = true) : x.isFinite = y.isFinite := by
  cases x <;> cases y <;> first | rfl | cases h

/-- Equal numbers have one value, the two zeros for example. -/
theorem value_eq_of_same {x y : Binary} (h : x.same y = true) : x.value = y.value := by
  cases x <;> cases y <;> try cases h
  · rfl
  · simp only [same, Bool.or_eq_true, Bool.and_eq_true, beq_iff_eq] at h
    rcases h with ⟨rfl, rfl⟩ | ⟨⟨rfl, rfl⟩, rfl⟩
    · rw [value_of_isZero rfl, value_of_isZero rfl]
    · rfl

end Binary

/-! ## Numbers that are doubles -/

/-- The nearest double is finite, and it is the number itself. -/
def IsDouble (q : Rat) : Prop := (Scalar.toDouble q).toRat? = some q

instance : DecidablePred IsDouble := fun q =>
  inferInstanceAs (Decidable ((Scalar.toDouble q).toRat? = some q))

namespace IsDouble

variable {q r : Rat}

theorem value (h : IsDouble q) : (Scalar.toDouble q).value = q := by
  rw [Binary.value, h]
  rfl

theorem isFinite (h : IsDouble q) : (Scalar.toDouble q).isFinite = true :=
  Binary.isFinite_of_toRat? h

/-- The sentinels become infinities. -/
theorem ne_sentinel (h : IsDouble q) : q ≠ sentinel := by
  rintro rfl
  cases h

theorem ne_neg_sentinel (h : IsDouble q) : q ≠ -sentinel := by
  rintro rfl
  cases h

theorem same_iff (hq : IsDouble q) (hr : IsDouble r) :
    (Scalar.toDouble q).same (Scalar.toDouble r) = true ↔ q = r := by
  constructor
  · intro h
    rw [← hq.value, ← hr.value]
    exact Binary.value_eq_of_same h
  · rintro rfl
    exact Binary.same_self hq.isFinite

end IsDouble

/-! ## Signs of rounded numbers -/

theorem Format.roundQuotient_sign (f : Format) (negative : Bool) (num den : Nat) :
    f.roundQuotient negative num den = .infinite negative ∨
      ∃ m e, f.roundQuotient negative num den = .finite negative m e := by
  unfold roundQuotient
  split
  · exact .inr ⟨_, _, rfl⟩
  · exact (ite_eq_or_eq _ _ _).imp_right fun h => ⟨_, _, h⟩

/-- Rounding keeps the sign. -/
theorem toDouble_sign (q : Rat) : Scalar.toDouble q = .infinite (decide (q < 0)) ∨
    ∃ m e, Scalar.toDouble q = .finite (decide (q < 0)) m e := by
  change rationalToDouble q = _ ∨ ∃ m e, rationalToDouble q = _
  unfold rationalToDouble
  split
  · next h => exact .inl (h ▸ by decide +kernel)
  · split
    · next h => exact .inl (h ▸ by decide +kernel)
    · exact Format.roundQuotient_sign ..

/-- The number is not rounded to zero, unless it is zero. -/
def Survives (q : Rat) : Prop := q ≠ 0 → (Scalar.toDouble q).isZero = false

instance : DecidablePred Survives := fun q =>
  inferInstanceAs (Decidable (q ≠ 0 → (Scalar.toDouble q).isZero = false))

namespace Survives

variable {q : Rat}

theorem sign (h : Survives q) (hq : q ≠ 0) :
    (Scalar.toDouble q).isNonpositive = decide (q < 0) ∧
      (Scalar.toDouble q).isNonnegative = !decide (q < 0) := by
  have hzero := h hq
  rcases toDouble_sign q with he | ⟨m, e, he⟩ <;> rw [he] at hzero ⊢
  · exact ⟨rfl, rfl⟩
  · simp only [Binary.isZero] at hzero
    simp [Binary.isNonnegative, Binary.neg, Binary.isNonpositive, hzero]

theorem isNonpositive_iff (h : Survives q) : (Scalar.toDouble q).isNonpositive = true ↔ q ≤ 0 := by
  by_cases hq : q = 0
  · rw [hq]
    decide +kernel
  · rw [(h.sign hq).1, decide_eq_true_iff, lt_iff_le_and_ne, and_iff_left hq]

theorem isNonnegative_iff (h : Survives q) : (Scalar.toDouble q).isNonnegative = true ↔ 0 ≤ q := by
  by_cases hq : q = 0
  · rw [hq]
    decide +kernel
  · rw [(h.sign hq).2, Bool.not_eq_true', decide_eq_false_iff_not, not_lt]

end Survives

end LinearProgramming
