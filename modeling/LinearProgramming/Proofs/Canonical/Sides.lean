import LinearProgramming.Proofs.Canonical.Form

/-!
# Sides of rows that meet the sentinel

While variables are replaced a row moves once for each of them, and each time it is read off the
present value of a side whether the side is infinite. The sentinel is an ordinary number, so a
finite side may come to lie on it. From then on it counts as infinite and stays there.

* `Rests`: a number that is moved again and again, and rests for ever where it meets a target;
* `Lands`: it meets the target on its way;
* `Program.substitution_tracks`: both sides of a row move like this, each with its own sentinel;
* `Program.substitution_sides`: a side keeps its kind exactly if it does not land on its sentinel
  after some of the variables, and a row of which no side lands has moved by the whole constant
  part;
* `Program.gear_slips`: landing needs no large data, and turns an equality into an inequality.
-/

namespace LinearProgramming

/-! ## Numbers that rest -/

/-- The number `y` is what has become of `x` after steps to `x - a 1`, ..., `x - a n`, where it
rests from the first of `x - a 0`, ..., `x - a n` on that is the target. -/
structure Rests (target : Rat) (a : Nat → Rat) (x : Rat) (n : Nat) (y : Rat) : Prop where
  met : (∃ i ≤ n, x - a i = target) → y = target
  missed : (∀ i ≤ n, x - a i ≠ target) → y = x - a n

/-- The number `x` is not on the target, and one of `x - a 0`, ..., `x - a n` is. -/
def Lands (target : Rat) (a : Nat → Rat) (x : Rat) (n : Nat) : Prop :=
  x ≠ target ∧ ∃ i ≤ n, x - a i = target

namespace Rests

variable {target x y : Rat} {a : Nat → Rat} {n : Nat}

theorem eq_target_iff (h : Rests target a x n y) : y = target ↔ ∃ i ≤ n, x - a i = target := by
  refine ⟨fun hy => ?_, h.met⟩
  by_contra hno
  have hmissed : ∀ i ≤ n, x - a i ≠ target := fun i hi e => hno ⟨i, hi, e⟩
  exact hmissed n le_rfl (h.missed hmissed ▸ hy)

theorem zero (ha : a 0 = 0) : Rests target a x 0 x where
  met := by
    rintro ⟨i, hi, e⟩
    rwa [Nat.le_zero.mp hi, ha, sub_zero] at e
  missed _ := by rw [ha, sub_zero]

/-- One more step, of a number that does not rest yet. -/
theorem succ (h : Rests target a x n y) :
    Rests target a x (n + 1) (if y = target then y else y - (a (n + 1) - a n)) := by
  by_cases hy : y = target
  · rw [if_pos hy]
    obtain ⟨i, hi, e⟩ := h.eq_target_iff.mp hy
    exact ⟨fun _ => hy, fun hno => absurd e (hno i (Nat.le_succ_of_le hi))⟩
  · rw [if_neg hy]
    have hmissed : ∀ i ≤ n, x - a i ≠ target := fun i hi e => hy (h.met ⟨i, hi, e⟩)
    have hnext : y - (a (n + 1) - a n) = x - a (n + 1) := by
      rw [h.missed hmissed]
      ring
    refine ⟨?_, fun _ => hnext⟩
    rintro ⟨i, hi, e⟩
    rcases Nat.le_succ_iff.mp hi with hi | rfl
    · exact absurd e (hmissed i hi)
    · exact hnext.trans e

/-- A number that does not land is on the target before the steps and after them, or neither. -/
theorem keeps_iff (h : Rests target a x n y) (ha : a 0 = 0) :
    (y = target ↔ x = target) ↔ ¬ Lands target a x n := by
  have hstart : x = target → ∃ i ≤ n, x - a i = target := fun hx =>
    ⟨0, Nat.zero_le n, by rw [ha, sub_zero, hx]⟩
  rw [h.eq_target_iff]
  constructor
  · rintro hk ⟨hx, hmet⟩
    exact hx (hk.mp hmet)
  · exact fun hno => ⟨fun hmet => by_contra fun hx => hno ⟨hx, hmet⟩, hstart⟩

/-- It has then moved all the way, unless it was on the target. -/
theorem eq_of_not_lands (h : Rests target a x n y) (ha : a 0 = 0) (hno : ¬ Lands target a x n) :
    y = if x = target then x else x - a n := by
  split
  · next hx => rw [((h.keeps_iff ha).mpr hno).mpr hx, hx]
  · next hx => exact h.missed fun i hi e => hno ⟨hx, i, hi, e⟩

end Rests

namespace Bounds

theorem shiftDown_lower (b : Bounds Rat) (s : Rat) :
    (b.shiftDown s).lower = if b.lower = -sentinel then b.lower else b.lower - s := by
  simp only [shiftDown, isUnboundedBelow_iff]

theorem shiftDown_upper (b : Bounds Rat) (s : Rat) :
    (b.shiftDown s).upper = if b.upper = sentinel then b.upper else b.upper - s := by
  simp only [shiftDown, isUnboundedAbove_iff]

end Bounds

/-! ## Rows that are moved -/

namespace Program

variable {p : Program Rat} {i r : Nat} {b : Bounds Rat}

/-- What has become of a row after the first `i` variables. -/
structure Tracks (p : Program Rat) (i r : Nat) (b moved : Bounds Rat) : Prop where
  lower : Rests (-sentinel) (fun k => p.offset k r) b.lower i moved.lower
  upper : Rests sentinel (fun k => p.offset k r) b.upper i moved.upper

@[simp]
theorem offset_zero (p : Program Rat) (r : Nat) : p.offset 0 r = 0 := Finset.sum_range_zero _

theorem Tracks.start (p : Program Rat) (r : Nat) (b : Bounds Rat) : p.Tracks 0 r b b :=
  ⟨.zero (p.offset_zero r), .zero (p.offset_zero r)⟩

/-- Replacing a variable moves the row by the constant part of that variable. -/
theorem Tracks.replace {moved : Bounds Rat} (h : p.Tracks i r b moved) {c : Column Rat}
    (hc : p.columns[i]? = some c) :
    p.Tracks (i + 1) r b (moved.shiftDown (c.coefficient r * c.bounds.origin)) := by
  have hstep : c.coefficient r * c.bounds.origin = p.offset (i + 1) r - p.offset i r := by
    rw [offset_succ hc]
    ring
  constructor
  · rw [Bounds.shiftDown_lower, hstep]
    exact h.lower.succ
  · rw [Bounds.shiftDown_upper, hstep]
    exact h.upper.succ

theorem substitution_tracks (hp : p.Stored) (hb : p.rows[r]? = some b) :
    ∃ moved, p.substitution.rows[r]? = some moved ∧ p.Tracks p.variableCount r b moved := by
  refine Substitution.substitution_induction
    (I := fun i s => ∃ moved, s.rows[r]? = some moved ∧ p.Tracks i r b moved)
    ⟨b, hb, .start p r b⟩ ?_
  rintro i c s hc ⟨moved, hmoved, h⟩
  have hr := (List.getElem?_eq_some_iff.mp hmoved).1
  refine ⟨_, ?_, h.replace hc⟩
  rw [Substitution.replace_rows (hp c (List.mem_of_getElem? hc)).1 hr, hmoved, Option.map_some]

/-! ## Sides that land -/

/-- The lower side of the row is finite, and lies on its sentinel after some of the variables. -/
def LandsBelow (p : Program Rat) (r : Nat) (b : Bounds Rat) : Prop :=
  Lands (-sentinel) (fun i => p.offset i r) b.lower p.variableCount

/-- The upper side of the row is finite, and lies on its sentinel after some of the variables. -/
def LandsAbove (p : Program Rat) (r : Nat) (b : Bounds Rat) : Prop :=
  Lands sentinel (fun i => p.offset i r) b.upper p.variableCount

/-- Below the sentinel nothing lands. -/
theorem Tame.not_lands (h : p.Tame) (hb : p.rows[r]? = some b) :
    ¬ p.LandsBelow r b ∧ ¬ p.LandsAbove r b := by
  constructor
  · rintro ⟨hl, i, hi, e⟩
    exact (h.movable hb hi).lower (Bool.eq_false_iff.mpr (mt Bounds.isUnboundedBelow_iff.mp hl)) e
  · rintro ⟨hu, i, hi, e⟩
    exact (h.movable hb hi).upper (Bool.eq_false_iff.mpr (mt Bounds.isUnboundedAbove_iff.mp hu)) e

namespace Tracks

variable {moved : Bounds Rat} (h : p.Tracks p.variableCount r b moved)

include h

theorem below_iff : moved.isUnboundedBelow = b.isUnboundedBelow ↔ ¬ p.LandsBelow r b := by
  rw [Bool.eq_iff_iff, Bounds.isUnboundedBelow_iff, Bounds.isUnboundedBelow_iff]
  exact h.lower.keeps_iff (p.offset_zero r)

theorem above_iff : moved.isUnboundedAbove = b.isUnboundedAbove ↔ ¬ p.LandsAbove r b := by
  rw [Bool.eq_iff_iff, Bounds.isUnboundedAbove_iff, Bounds.isUnboundedAbove_iff]
  exact h.upper.keeps_iff (p.offset_zero r)

/-- A row of which no side lands moves as a whole. -/
theorem eq_shiftDown (hl : ¬ p.LandsBelow r b) (hu : ¬ p.LandsAbove r b) :
    moved = b.shiftDown (p.offset p.variableCount r) := by
  have hlower := h.lower.eq_of_not_lands (p.offset_zero r) hl
  have hupper := h.upper.eq_of_not_lands (p.offset_zero r) hu
  rw [← Bounds.shiftDown_lower] at hlower
  rw [← Bounds.shiftDown_upper] at hupper
  exact congrArg₂ Bounds.mk hlower hupper

end Tracks

/-- When all variables are replaced, the sides of a row are of the kind that they were of, except
those that have landed. A row of which none has is where the constant parts have moved it. -/
theorem substitution_sides (hp : p.Stored) (hb : p.rows[r]? = some b) :
    ∃ moved, p.substitution.rows[r]? = some moved ∧
      (moved.isUnboundedBelow = b.isUnboundedBelow ↔ ¬ p.LandsBelow r b) ∧
      (moved.isUnboundedAbove = b.isUnboundedAbove ↔ ¬ p.LandsAbove r b) ∧
      (¬ p.LandsBelow r b → ¬ p.LandsAbove r b →
        moved = b.shiftDown (p.offset p.variableCount r)) := by
  obtain ⟨moved, hmoved, h⟩ := substitution_tracks hp hb
  exact ⟨moved, hmoved, h.below_iff, h.above_iff, h.eq_shiftDown⟩

/-- In a tame program every row keeps its kind, a range between `-1` and `5` for example. -/
theorem mixture_sides : mixture.Stored ∧ mixture.rows[0]? = some ⟨-1, 5⟩ ∧
    ∃ moved, mixture.substitution.rows[0]? = some moved ∧
      moved.isUnboundedBelow = false ∧ moved.isUnboundedAbove = false ∧
      moved = (⟨-1, 5⟩ : Bounds Rat).shiftDown (mixture.offset mixture.variableCount 0) := by
  have hs : mixture.Stored := by decide
  have hb : mixture.rows[0]? = some ⟨-1, 5⟩ := rfl
  obtain ⟨hlow, hup⟩ := mixture_tame.not_lands hb
  obtain ⟨moved, hmoved, hbelow, habove, heq⟩ := substitution_sides hs hb
  exact ⟨hs, hb, moved, hmoved, hbelow.mpr hlow, habove.mpr hup, heq hlow hup⟩

end Program

/-! ## A row that lands -/

/-- Each end is the sentinel of its own side, or lies strictly between the two. -/
structure Bounds.Proper (b : Bounds Rat) : Prop where
  lower : b.isUnboundedBelow = true ∨ -sentinel < b.lower ∧ b.lower < sentinel
  upper : b.isUnboundedAbove = true ∨ -sentinel < b.upper ∧ b.upper < sentinel

instance (b : Bounds Rat) : Decidable b.Proper :=
  decidable_of_iff
    ((b.isUnboundedBelow = true ∨ -sentinel < b.lower ∧ b.lower < sentinel) ∧
      (b.isUnboundedAbove = true ∨ -sentinel < b.upper ∧ b.upper < sentinel))
    ⟨fun h => ⟨h.1, h.2⟩, fun h => ⟨h.lower, h.upper⟩⟩

namespace Program

/-- All bounds of variables and of rows are proper. -/
structure Proper (p : Program Rat) : Prop where
  columns : ∀ c ∈ p.columns, c.bounds.Proper
  rows : ∀ b ∈ p.rows, b.Proper

instance (p : Program Rat) : Decidable p.Proper :=
  decidable_of_iff ((∀ c ∈ p.columns, c.bounds.Proper) ∧ ∀ b ∈ p.rows, b.Proper)
    ⟨fun h => ⟨h.1, h.2⟩, fun h => ⟨h.columns, h.rows⟩⟩

/-- The second variable is to equal the first, which is one of two numbers, as large as possible.
The bound and the factor of the first have the product `2 ^ 63 - 1`. -/
def gear : Program Rat where
  sense := .maximize
  columns := [⟨⟨153092023, 153092024⟩, 0, [(0, -60247241209)]⟩,
    ⟨.nonnegative, 1, [(0, 60247241209)]⟩]
  rows := [⟨0, 0⟩]

/-- The equality of the two variables lands on the sentinel, which makes it an inequality: it has
no slack, and where it has moved to it gets one. -/
theorem gear_slips : gear.Stored ∧ gear.Proper ∧ ∃ b moved : Bounds Rat,
    gear.rows[0]? = some b ∧ gear.substitution.rows[0]? = some moved ∧
      b.isUnboundedAbove = false ∧ moved.isUnboundedAbove = true ∧
      slack? b = none ∧ slack? moved = some (-1) := by
  refine ⟨by decide, by decide +kernel, ⟨0, 0⟩, ⟨sentinel, sentinel⟩, rfl, ?_⟩
  decide +kernel

end Program
end LinearProgramming
