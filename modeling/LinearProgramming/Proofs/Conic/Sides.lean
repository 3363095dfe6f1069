import LinearProgramming.Conic.Program
import LinearProgramming.Proofs.Canonical.Cells
import LinearProgramming.Proofs.Rounding

/-!
# Sides of bounds

A conic program has a row for every finite side of whatever is bounded, and one only if both sides
are equal.

* `Bounds.sides`: the sides of bounds, which ask for what the bounds do (`admits_iff_sides`);
* `ConicRow.equalities_eq`, `ConicRow.inequalities_eq`: the rows of a bounded left side are those of
  its sides.
-/

namespace LinearProgramming

/-- A finite side of bounds; both sides are one if they are equal. -/
inductive Side where
  | fixed
  | upper
  | lower
deriving DecidableEq

namespace Side

/-- The end of the bounds that the side is at. -/
def limit (b : Bounds Rat) : Side → Rat
  | .fixed | .upper => b.upper
  | .lower => b.lower

/-- Upper sides stand as they are in a conic program, lower ones are negated. -/
def sign : Side → Rat
  | .fixed | .upper => 1
  | .lower => -1

/-- The value does not lie beyond the side. -/
def Holds (b : Bounds Rat) (y : Rat) : Side → Prop
  | .fixed => y = b.upper
  | .upper => y ≤ b.upper
  | .lower => b.lower ≤ y

/-- In terms of the slack: it is zero at a side that fixes the value, elsewhere at least zero. -/
theorem holds_iff_slack (b : Bounds Rat) (y : Rat) (s : Side) : s.Holds b y ↔
    if s = .fixed then s.sign * s.limit b - s.sign * y = 0
    else 0 ≤ s.sign * s.limit b - s.sign * y := by
  cases s with
  | fixed =>
    rw [if_pos rfl, sign, one_mul, one_mul, sub_eq_zero]
    exact eq_comm
  | upper =>
    rw [if_neg Side.noConfusion, sign, one_mul, one_mul, sub_nonneg]
    rfl
  | lower =>
    rw [if_neg Side.noConfusion, sign, neg_one_mul, neg_one_mul, sub_nonneg, neg_le_neg_iff]
    rfl

end Side

namespace Bounds

variable {b : Bounds Rat}

/-- The sides of bounds, in the order of their rows. -/
def sides (b : Bounds Rat) : List Side :=
  match b.kind with
  | .free => []
  | .upper => [.upper]
  | .lower => [.lower]
  | .fixed => [.fixed]
  | .double => [.upper, .lower]

theorem sides_nodup (b : Bounds Rat) : b.sides.Nodup := by
  unfold sides
  cases b.kind <;> decide

theorem admits_iff_sides (b : Bounds Rat) (y : Rat) : b.Admits y ↔ ∀ s ∈ b.sides, s.Holds b y := by
  unfold Admits sides kind
  cases b.isUnboundedBelow <;> cases b.isUnboundedAbove
  · by_cases h : b.lower = b.upper
    · simpa [Scalar.same, Side.Holds, h] using and_comm.trans le_antisymm_iff.symm
    · simp [Scalar.same, Side.Holds, h, and_comm]
  all_goals simp [Side.Holds]

/-- Each end is missing, or it is a double. -/
structure Representable (b : Bounds Rat) : Prop where
  lower : b.isUnboundedBelow = true ∨ IsDouble b.lower
  upper : b.isUnboundedAbove = true ∨ IsDouble b.upper

instance (b : Bounds Rat) : Decidable b.Representable :=
  decidable_of_iff ((b.isUnboundedBelow = true ∨ IsDouble b.lower) ∧
    (b.isUnboundedAbove = true ∨ IsDouble b.upper)) ⟨fun h => ⟨h.1, h.2⟩, fun h => ⟨h.1, h.2⟩⟩

/-- A missing end becomes an infinity, and there is no other way to one. -/
theorem Representable.isFinite (h : b.Representable) :
    b.toDouble.lower.isFinite = !b.isUnboundedBelow ∧
      b.toDouble.upper.isFinite = !b.isUnboundedAbove := by
  constructor
  · rcases h.lower with hl | hl
    · rw [hl, toDouble, isUnboundedBelow_iff.mp hl]
      rfl
    · rw [Bool.eq_false_iff.mpr (mt isUnboundedBelow_iff.mp hl.ne_neg_sentinel)]
      exact hl.isFinite
  · rcases h.upper with hu | hu
    · rw [hu, toDouble, isUnboundedAbove_iff.mp hu]
      rfl
    · rw [Bool.eq_false_iff.mpr (mt isUnboundedAbove_iff.mp hu.ne_sentinel)]
      exact hu.isFinite

/-- Only ends that are there can be equal doubles. -/
theorem Representable.same_iff (h : b.Representable) :
    b.toDouble.lower.same b.toDouble.upper = true ↔ b.kind = .fixed := by
  obtain ⟨hlower, hupper⟩ := h.isFinite
  have hends : b.toDouble.lower.same b.toDouble.upper = true →
      b.isUnboundedBelow = b.isUnboundedAbove := by
    intro hs
    have := Binary.isFinite_eq_of_same hs
    rwa [hlower, hupper, Bool.not_inj_iff] at this
  unfold kind
  cases hb : b.isUnboundedBelow <;> cases ha : b.isUnboundedAbove
  · have hl := h.lower.resolve_left (by simp [hb])
    have hu := h.upper.resolve_left (by simp [ha])
    refine (hl.same_iff hu).trans ?_
    by_cases he : b.lower = b.upper <;> simp [Scalar.same, he]
  · exact iff_of_false (fun hs => by simpa [hb, ha] using hends hs) (by simp)
  · exact iff_of_false (fun hs => by simpa [hb, ha] using hends hs) (by simp)
  · rw [toDouble, isUnboundedBelow_iff.mp hb, isUnboundedAbove_iff.mp ha]
    decide +kernel

/-- A side is at an end that is there. -/
theorem Representable.limit (h : b.Representable) {s : Side} (hs : s ∈ b.sides) :
    IsDouble (s.limit b) := by
  have hl : b.isUnboundedBelow = false → IsDouble b.lower := fun hb =>
    h.lower.resolve_left (by simp [hb])
  have hu : b.isUnboundedAbove = false → IsDouble b.upper := fun ha =>
    h.upper.resolve_left (by simp [ha])
  unfold sides kind at hs
  cases hb : b.isUnboundedBelow <;> cases ha : b.isUnboundedAbove <;> rw [hb, ha] at hs
  · by_cases he : b.lower = b.upper
    · obtain rfl : s = .fixed := by simpa [Scalar.same, he] using hs
      exact hu ha
    · obtain rfl | rfl : s = .upper ∨ s = .lower := by simpa [Scalar.same, he] using hs
      · exact hu ha
      · exact hl hb
  · obtain rfl := List.mem_singleton.mp hs
    exact hl hb
  · obtain rfl := List.mem_singleton.mp hs
    exact hu ha
  · cases hs

end Bounds

/-! ## Rows for sides -/

namespace ConicRow

/-- The row for a side of a bounded left side. -/
def ofSide (t : Bounds Binary × List (Nat × Binary)) : Side → ConicRow
  | .fixed | .upper => ⟨t.2, t.1.upper⟩
  | .lower => ⟨t.2.map fun (v, x) => (v, x.neg), t.1.lower.neg⟩

variable {b : Bounds Rat} (h : b.Representable) (entries : List (Nat × Binary))

include h

theorem equalities_eq : equalities (b.toDouble, entries) =
    (b.sides.filter (· = .fixed)).map (ofSide (b.toDouble, entries)) := by
  unfold equalities
  simp only [h.same_iff]
  unfold Bounds.sides
  cases b.kind <;> rfl

theorem inequalities_eq : inequalities (b.toDouble, entries) =
    (b.sides.filter (· ≠ .fixed)).map (ofSide (b.toDouble, entries)) := by
  unfold inequalities
  simp only [h.same_iff, h.isFinite]
  unfold Bounds.sides Bounds.kind
  cases b.isUnboundedBelow <;> cases b.isUnboundedAbove
  · by_cases he : b.lower = b.upper <;> simp [Scalar.same, he, ofSide]
  all_goals rfl

end ConicRow

end LinearProgramming
