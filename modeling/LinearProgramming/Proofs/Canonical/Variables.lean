import LinearProgramming.Proofs.Canonical.Substitute
import Mathlib.Algebra.Order.Ring.Abs

/-!
# All variables are replaced

* `Program.Tame`: no row is free, and no finite side of a row reaches a sentinel while variables are
  measured from their bounds;
* `Substitution.Follows`: what the replaced variables and the rows have to do with each other after
  a number of variables; `Follows.replace` is one more of them;
* `Program.substitution_follows`: it holds of the whole substitution.
-/

namespace LinearProgramming

open Finset

namespace Program

/-- The coefficient of a variable in a row. -/
def entry (p : Program Rat) (r j : Nat) : Rat := coord (p.columns.map fun c => c.coefficient r) j

/-- Where a variable is measured from. -/
def origin (p : Program Rat) (j : Nat) : Rat := coord (p.columns.map fun c => c.bounds.origin) j

/-- How far a row moves at most while variables are measured from their origins. -/
def reach (p : Program Rat) (r : Nat) : Rat :=
  ∑ j ∈ range p.variableCount, |p.entry r j| * |p.origin j|

/-- No row is free, and finite sides of rows stay below the sentinel. -/
structure Tame (p : Program Rat) : Prop where
  bounded : ∀ b ∈ p.rows, b.kind ≠ .free
  lower : ∀ (r : Nat) (b : Bounds Rat), p.rows[r]? = some b → b.isUnboundedBelow = false →
    |b.lower| + p.reach r < sentinel
  upper : ∀ (r : Nat) (b : Bounds Rat), p.rows[r]? = some b → b.isUnboundedAbove = false →
    |b.upper| + p.reach r < sentinel

/-- How far a row has moved after the first `i` variables. -/
def offset (p : Program Rat) (i r : Nat) : Rat := ∑ j ∈ range i, p.entry r j * p.origin j

variable {p : Program Rat} {i j r : Nat} {c : Column Rat} {b : Bounds Rat}

theorem entry_eq (h : p.columns[j]? = some c) : p.entry r j = c.coefficient r := by
  obtain ⟨hj, rfl⟩ := List.getElem?_eq_some_iff.mp h
  exact coord_map _ _ hj

theorem origin_eq (h : p.columns[j]? = some c) : p.origin j = c.bounds.origin := by
  obtain ⟨hj, rfl⟩ := List.getElem?_eq_some_iff.mp h
  exact coord_map _ _ hj

theorem cost_eq (h : p.columns[j]? = some c) : coord p.costs j = c.cost := by
  obtain ⟨hj, rfl⟩ := List.getElem?_eq_some_iff.mp h
  exact coord_map _ _ hj

theorem offset_succ (h : p.columns[i]? = some c) :
    p.offset (i + 1) r = p.offset i r + c.coefficient r * c.bounds.origin := by
  simp only [offset, Finset.sum_range_succ, entry_eq h, origin_eq h]

theorem leftSide_eq (p : Program Rat) (x : Nat → Rat) (r : Nat) :
    p.leftSide x r = ∑ j ∈ range p.variableCount, p.entry r j * x j := by
  rw [leftSide, weigh, List.length_map]
  rfl

theorem abs_offset_le (hi : i ≤ p.variableCount) : |p.offset i r| ≤ p.reach r :=
  calc |p.offset i r| ≤ ∑ j ∈ range i, |p.entry r j * p.origin j| := Finset.abs_sum_le_sum_abs ..
    _ = ∑ j ∈ range i, |p.entry r j| * |p.origin j| :=
      Finset.sum_congr rfl fun _ _ => abs_mul ..
    _ ≤ p.reach r := Finset.sum_le_sum_of_subset_of_nonneg
      (Finset.range_mono hi) fun _ _ _ => mul_nonneg (abs_nonneg _) (abs_nonneg _)

theorem Tame.movable (h : p.Tame) (hb : p.rows[r]? = some b) (hi : i ≤ p.variableCount) :
    b.Movable (p.offset i r) := by
  have hoff := abs_le.mp (abs_offset_le (r := r) hi)
  constructor
  · intro hl e
    have hlt := h.lower r b hb hl
    linarith [neg_abs_le b.lower]
  · intro hu e
    have hlt := h.upper r b hb hu
    linarith [le_abs_self b.upper]

end Program

namespace Substitution

/-- What a substitution of the first `i` variables of a program comes to. -/
structure Follows (p : Program Rat) (i : Nat) (s : Substitution Rat) : Prop where
  shaped : s.Shaped p i
  rows : ∀ (r : Nat) (b : Bounds Rat), p.rows[r]? = some b →
    s.rows[r]? = some (b.shiftDown (p.offset i r))
  left : ∀ z, ∀ r < p.rowCount, s.left p.variableCount z r =
    ∑ j ∈ range i, p.entry r j * s.point z j - p.offset i r
  cost : ∀ z, s.total p.variableCount (·.cost) z =
    ∑ j ∈ range i, coord p.costs j * s.point z j - ∑ j ∈ range i, coord p.costs j * p.origin j
  extra : ∀ z, (∀ (r : Nat) (b : Bounds Rat), p.rowCount ≤ r → s.rows[r]? = some b →
      b.Enforces (s.left p.variableCount z r)) ↔
    ∀ j < i, ∀ c, p.columns[j]? = some c → LeavesRow c → s.point z j ≤ c.bounds.upper
  within : ∀ z, (∀ v, 0 ≤ z v) → ∀ j < i, ∀ c, p.columns[j]? = some c →
    (c.bounds.isUnboundedBelow = true ∨ c.bounds.lower ≤ s.point z j) ∧
      (c.bounds.isUnboundedAbove = true ∨ LeavesRow c ∨ s.point z j ≤ c.bounds.upper)
  cover : ∀ x : Nat → Rat, (∀ j < i, ∀ c, p.columns[j]? = some c → c.bounds.Admits (x j)) →
    ∃ z : Nat → Rat, (∀ v, 0 ≤ z v) ∧ ∀ j < i, s.point z j = x j

variable {p : Program Rat} {s : Substitution Rat} {i : Nat} {c : Column Rat}

/-! ## Shapes -/

/-- Beyond the rows there are no coefficients. -/
theorem Shaped.left_eq_zero (h : s.Shaped p i) {r : Nat} (hr : s.rows.length ≤ r)
    (z : Nat → Rat) : s.left p.variableCount z r = 0 := by
  have hzero : ∀ d ∈ s.replaced ++ s.partners, d.coefficient r = 0 := fun d hd =>
    Column.coefficient_eq_zero fun e he => (((h.placed d hd).inside e he).trans_le hr).ne
  rw [left, total, weigh_eq_zero, weigh_eq_zero, add_zero]
  · intro w hw
    obtain ⟨d, hd, rfl⟩ := List.mem_map.mp hw
    exact hzero d (List.mem_append_right _ hd)
  · intro w hw
    obtain ⟨d, hd, rfl⟩ := List.mem_map.mp hw
    exact hzero d (List.mem_append_left _ hd)

/-- The points agree where the first `i` variables are recovered from. -/
def Agree (p : Program Rat) (s : Substitution Rat) (i : Nat) (z w : Nat → Rat) : Prop :=
  ∀ v, v < i ∨ (p.variableCount ≤ v ∧ v < p.variableCount + s.partners.length) → z v = w v

theorem Shaped.point_congr (h : s.Shaped p i) {z w : Nat → Rat} (ha : s.Agree p i z w) {j : Nat}
    (hj : j < i) : s.point z j = s.point w j := by
  have hjl : j < s.recoveries.length := h.recoveries ▸ hj
  rw [point, point, List.getD_eq_getElem _ _ hjl, Recovery.read, Recovery.read, ha j (.inl hj)]
  cases hk : s.recoveries[j].paired with
  | none => rfl
  | some k => simp only [Option.elim_some, ha k (.inr (h.pairs _ (List.getElem_mem hjl) k hk))]

/-! ## One more variable -/

theorem update_nonneg {z : Nat → Rat} (hz : ∀ v, 0 ≤ z v) {y : Rat} (hy : 0 ≤ y) (i v : Nat) :
    0 ≤ Function.update z i y v := by
  rw [Function.update_apply]
  split
  · exact hy
  · exact hz v

theorem agree_update (hi : i < p.variableCount) (z : Nat → Rat) (y : Rat) :
    s.Agree p i z (Function.update z i y) := by
  intro v hv
  rw [Function.update_of_ne (by omega)]

/-- A free variable takes the positive part of its value, and its partner the negative part. -/
theorem exists_split_point (hs : s.Shaped p i) (hi : i < p.variableCount) (x : Rat)
    {z : Nat → Rat} (hz : ∀ v, 0 ≤ z v) :
    ∃ w : Nat → Rat, (∀ v, 0 ≤ w v) ∧ s.Agree p i z w ∧
      (s.split p.variableCount c).point w i = x := by
  refine ⟨Function.update (Function.update z i (max x 0)) (p.variableCount + s.partners.length)
    (max (-x) 0), ?_, ?_, ?_⟩
  · exact update_nonneg (update_nonneg hz (le_max_right _ _) i) (le_max_right _ _) _
  · intro v hv
    rw [Function.update_of_ne (by omega), ← agree_update hi z _ v hv]
  · rw [split_point hs.recoveries, Function.update_self, Function.update_of_ne (by omega),
      Function.update_self]
    rcases le_total 0 x with h | h
    · rw [max_eq_left h, max_eq_right (by linarith), sub_zero]
    · rw [max_eq_right h, max_eq_left (by linarith), zero_sub, neg_neg]

/-- A value within the bounds of the variable is recovered from nonnegative ones. -/
theorem exists_point (hs : s.Shaped p i) (hi : i < p.variableCount) {x : Rat}
    (hx : c.bounds.Admits x) {z : Nat → Rat} (hz : ∀ v, 0 ≤ z v) :
    ∃ w : Nat → Rat, (∀ v, 0 ≤ w v) ∧ s.Agree p i z w ∧
      (s.replace p.variableCount c).point w i = x := by
  unfold replace
  cases hb : c.bounds.isUnboundedBelow
  · have hlow : 0 ≤ x - c.bounds.lower := sub_nonneg.mpr (hx.1.resolve_left (by simp [hb]))
    refine ⟨_, update_nonneg hz hlow i, agree_update hi z _, ?_⟩
    simp [shift_point hs.recoveries]
  · cases ha : c.bounds.isUnboundedAbove
    · have hup : 0 ≤ c.bounds.upper - x := sub_nonneg.mpr (hx.2.resolve_left (by simp [ha]))
      refine ⟨_, update_nonneg hz hup i, agree_update hi z _, ?_⟩
      simp [reflect_point hs.recoveries]
    · exact exists_split_point hs hi x hz

theorem replace_within (hs : s.Shaped p i) {z : Nat → Rat} (hz : ∀ v, 0 ≤ z v) :
    (c.bounds.isUnboundedBelow = true ∨
      c.bounds.lower ≤ (s.replace p.variableCount c).point z i) ∧
    (c.bounds.isUnboundedAbove = true ∨ LeavesRow c ∨
      (s.replace p.variableCount c).point z i ≤ c.bounds.upper) := by
  unfold replace LeavesRow
  cases hb : c.bounds.isUnboundedBelow
  · simp only [Bool.false_eq_true, if_false, false_or, true_and]
    rw [shift_point hs.recoveries]
    refine ⟨by linarith [hz i], ?_⟩
    cases c.bounds.isUnboundedAbove
    · exact .inr (.inl rfl)
    · exact .inl rfl
  · cases ha : c.bounds.isUnboundedAbove
    · simp only [Bool.false_eq_true, if_false, if_true]
      rw [reflect_point hs.recoveries]
      exact ⟨.inl trivial, .inr (.inr (by linarith [hz i]))⟩
    · exact ⟨.inl rfl, .inl rfl⟩

/-- The new row holds if the variable is below its upper bound. -/
theorem enforces_new (hs : s.Shaped p i) (he : ∀ e ∈ c.entries, e.1 < s.rows.length)
    (hc : LeavesRow c) (z : Nat → Rat) :
    (Bounds.upTo (c.bounds.upper - c.bounds.lower)).Enforces
        ((s.replace p.variableCount c).left p.variableCount z s.rows.length) ↔
      (s.replace p.variableCount c).point z i ≤ c.bounds.upper := by
  have hreplace : s.replace p.variableCount c = s.shift c := by simp [replace, hc.1]
  rw [hreplace, shift_point hs.recoveries, left, total_shift hs.replaced, ← left,
    hs.left_eq_zero le_rfl, shifted_coefficient he, if_pos ⟨hc.2, rfl⟩, zero_add, one_mul]
  have hbelow : (Bounds.upTo (c.bounds.upper - c.bounds.lower)).isUnboundedBelow = true :=
    Bounds.isUnboundedBelow_iff.mpr rfl
  rw [Bounds.Enforces, if_pos hbelow]
  exact le_sub_iff_add_le

/-- Rows that were added for earlier variables stay as they are. -/
theorem replace_added (hs : s.Shaped p i) (ho : c.entries.Ordered)
    (he : ∀ e ∈ c.entries, e.1 < p.rowCount) {r : Nat} (hm : p.rowCount ≤ r)
    (hr : r < s.rows.length) (z : Nat → Rat) :
    (s.replace p.variableCount c).rows[r]? = s.rows[r]? ∧
      (s.replace p.variableCount c).left p.variableCount z r = s.left p.variableCount z r := by
  have hes : ∀ e ∈ c.entries, e.1 < s.rows.length := fun e hm => (he e hm).trans_le hs.rows
  have hzero : c.coefficient r = 0 :=
    Column.coefficient_eq_zero fun e hmem => ((he e hmem).trans_le hm).ne
  rw [replace_rows ho hr, replace_left hs.replaced hs.recoveries hes hr, hzero]
  simp

theorem replace_new_row {n : Nat} (hc : LeavesRow c) :
    (s.replace n c).rows[s.rows.length]? = some (.upTo (c.bounds.upper - c.bounds.lower)) := by
  have hl := shiftRows_length s.rows c.entries c.bounds.lower
  rw [replace_rows_leavesRow hc, List.getElem?_append_right hl.le, hl, Nat.sub_self]
  rfl

/-- The new row, if there is one, keeps the variable below its upper bound. -/
theorem replace_extra (hs : s.Shaped p i) (ho : c.entries.Ordered)
    (he : ∀ e ∈ c.entries, e.1 < p.rowCount) (z : Nat → Rat) :
    (∀ (r : Nat) (b : Bounds Rat), p.rowCount ≤ r →
      (s.replace p.variableCount c).rows[r]? = some b →
        b.Enforces ((s.replace p.variableCount c).left p.variableCount z r)) ↔
    (∀ (r : Nat) (b : Bounds Rat), p.rowCount ≤ r → s.rows[r]? = some b →
      b.Enforces (s.left p.variableCount z r)) ∧
    (LeavesRow c → (s.replace p.variableCount c).point z i ≤ c.bounds.upper) := by
  have hes : ∀ e ∈ c.entries, e.1 < s.rows.length := fun e hm => (he e hm).trans_le hs.rows
  constructor
  · intro h
    constructor
    · intro r b hm hb
      obtain ⟨hr, -⟩ := List.getElem?_eq_some_iff.mp hb
      obtain ⟨hrow, hleft⟩ := replace_added hs ho he hm hr z
      rw [← hleft]
      exact h r b hm (hrow.trans hb)
    · intro hc
      exact (enforces_new hs hes hc z).mp (h _ _ hs.rows (replace_new_row hc))
  · rintro ⟨h, hnew⟩ r b hm hb
    by_cases hr : r < s.rows.length
    · obtain ⟨hrow, hleft⟩ := replace_added hs ho he hm hr z
      rw [hleft]
      exact h r b hm (hrow.symm.trans hb)
    · obtain ⟨hlt, -⟩ := List.getElem?_eq_some_iff.mp hb
      by_cases hc : LeavesRow c
      · rw [replace_rows_length_leavesRow hc] at hlt
        obtain rfl : r = s.rows.length := by omega
        obtain rfl := Option.some.inj ((replace_new_row hc).symm.trans hb)
        exact (enforces_new hs hes hc z).mpr (hnew hc)
      · rw [replace_rows_length hc] at hlt
        exact absurd hlt hr

theorem Shaped.sum_replace (hs : s.Shaped p i) (f : Nat → Rat) (z : Nat → Rat) :
    ∑ j ∈ range i, f j * (s.replace p.variableCount c).point z j =
      ∑ j ∈ range i, f j * s.point z j :=
  sum_range_congr fun j hj => by rw [replace_point (hs.recoveries ▸ hj)]

/-- The upper bounds that are rows, with that of one more variable. -/
theorem forall_leavesRow (hs : s.Shaped p i) (hc : p.columns[i]? = some c) (z : Nat → Rat) :
    (∀ j < i + 1, ∀ d, p.columns[j]? = some d → LeavesRow d →
      (s.replace p.variableCount c).point z j ≤ d.bounds.upper) ↔
    (∀ j < i, ∀ d, p.columns[j]? = some d → LeavesRow d → s.point z j ≤ d.bounds.upper) ∧
      (LeavesRow c → (s.replace p.variableCount c).point z i ≤ c.bounds.upper) := by
  rw [Nat.forall_lt_succ_right]
  refine and_congr (forall_congr' fun j => forall_congr' fun hj => ?_) ?_
  · rw [replace_point (hs.recoveries ▸ hj)]
  · constructor
    · exact fun h hleaves => h c hc hleaves
    · intro h d hd hleaves
      obtain rfl := Option.some.inj (hd.symm.trans hc)
      exact h hleaves

theorem Follows.replace (h : s.Follows p i) (ht : p.Tame) (hc : p.columns[i]? = some c)
    (ho : c.entries.Ordered) (he : ∀ e ∈ c.entries, e.1 < p.rowCount) :
    (s.replace p.variableCount c).Follows p (i + 1) := by
  have hs := h.shaped
  obtain ⟨hi, -⟩ := List.getElem?_eq_some_iff.mp hc
  have hes : ∀ e ∈ c.entries, e.1 < s.rows.length := fun e hm => (he e hm).trans_le hs.rows
  have hpoint : ∀ z, ∀ j < i, (s.replace p.variableCount c).point z j = s.point z j :=
    fun z j hj => replace_point (hs.recoveries ▸ hj) z
  refine ⟨hs.replace ho he, ?_, ?_, ?_, ?_, ?_, ?_⟩
  · intro r b hb
    obtain ⟨hr, -⟩ := List.getElem?_eq_some_iff.mp hb
    simp only [replace_rows ho (hr.trans_le hs.rows), h.rows r b hb, Option.map_some,
      (ht.movable hb hi.le).shiftDown_shiftDown, Program.offset_succ hc]
  · intro z r hr
    rw [replace_left hs.replaced hs.recoveries hes (hr.trans_le hs.rows), h.left z r hr,
      Finset.sum_range_succ, hs.sum_replace, Program.offset_succ hc, Program.entry_eq hc]
    ring
  · intro z
    rw [replace_cost hs.replaced hs.recoveries, h.cost z, Finset.sum_range_succ,
      Finset.sum_range_succ, hs.sum_replace, Program.cost_eq hc, Program.origin_eq hc]
    ring
  · intro z
    simp only [replace_extra hs ho he z, h.extra z, forall_leavesRow hs hc z]
  · intro z hz
    rw [Nat.forall_lt_succ_right]
    constructor
    · intro j hj d hd
      rw [hpoint z j hj]
      exact h.within z hz j hj d hd
    · intro d hd
      obtain rfl := Option.some.inj (hd.symm.trans hc)
      exact replace_within hs hz
  · intro x hx
    obtain ⟨hlow, hnew⟩ := Nat.forall_lt_succ_right.mp hx
    obtain ⟨z, hz, hzx⟩ := h.cover x hlow
    obtain ⟨w, hw, hagree, hwx⟩ := exists_point hs hi (hnew c hc) hz
    refine ⟨w, hw, Nat.forall_lt_succ_right.mpr ⟨?_, hwx⟩⟩
    intro j hj
    simp only [hpoint w j hj, ← hs.point_congr hagree hj, hzx j hj]

/-! ## All variables -/

theorem shaped_start (p : Program Rat) : Shaped p 0 ⟨[], [], p.rows, []⟩ where
  replaced := rfl
  recoveries := rfl
  pairs t ht := by simp at ht
  placed d hd := by simp at hd
  rows := le_rfl

theorem follows_start (p : Program Rat) : Follows p 0 ⟨[], [], p.rows, []⟩ where
  shaped := shaped_start p
  rows r b hb := by simp [Program.offset, hb]
  left z r _ := by simp [left, total, weigh, Program.offset]
  cost z := by simp [total, weigh]
  extra z := by
    constructor
    · intro _ j hj
      omega
    · intro _ r b hm hb
      obtain ⟨hr, -⟩ := List.getElem?_eq_some_iff.mp hb
      exact absurd hr (Nat.not_lt.mpr hm)
  within z _ j hj := by omega
  cover x _ := ⟨fun _ => 0, fun _ => le_rfl, fun j hj => by omega⟩

/-- What holds before the first variable and is kept by each holds after the last. -/
theorem substitution_induction {I : Nat → Substitution Rat → Prop} (h0 : I 0 ⟨[], [], p.rows, []⟩)
    (step : ∀ i c s, p.columns[i]? = some c → I i s → I (i + 1) (s.replace p.variableCount c)) :
    I p.variableCount p.substitution := by
  have hprefix : ∀ k ≤ p.columns.length, I k ((p.columns.take k).foldl
      (Substitution.replace p.variableCount) ⟨[], [], p.rows, []⟩) := by
    intro k
    induction k with
    | zero => exact fun _ => h0
    | succ k ih =>
      intro hk
      have hc := List.getElem?_eq_getElem hk
      rw [List.take_add_one, hc, List.foldl_append]
      exact step k _ _ hc (ih (by omega))
  have := hprefix p.columns.length le_rfl
  rwa [List.take_length] at this

end Substitution

namespace Program

open Substitution

variable {p : Program Rat}

theorem substitution_shaped (hp : p.Stored) : p.substitution.Shaped p p.variableCount := by
  apply substitution_induction (shaped_start p)
  intro i c s hc h
  obtain ⟨ho, he⟩ := hp c (List.mem_of_getElem? hc)
  exact h.replace ho he

theorem substitution_follows (hp : p.Stored) (ht : p.Tame) :
    p.substitution.Follows p p.variableCount := by
  apply substitution_induction (follows_start p)
  intro i c s hc h
  obtain ⟨ho, he⟩ := hp c (List.mem_of_getElem? hc)
  exact h.replace ht hc ho he

end Program
end LinearProgramming
