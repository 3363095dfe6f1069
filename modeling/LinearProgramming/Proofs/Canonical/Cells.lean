import LinearProgramming.Canonical
import LinearProgramming.Proofs.Points

/-!
# Columns and bounds that are rewritten

* `coefficient_mapValues`, `coefficient_concat`: the coefficients of a rewritten column;
* `Bounds.Enforces`: what a row comes to as an equality with a slack, which reads a row without a
  lower bound as an upper bound whatever that is;
* `Bounds.Movable`: a finite side that is moved does not land on its sentinel, so that the row keeps
  its kind.
-/

namespace LinearProgramming

/-! ## Coefficients -/

namespace Column

theorem coefficient_mapValues (b : Bounds Rat) (cost : Rat) (entries : Entries Rat)
    {f : Nat → Rat → Rat} {r : Nat} (h : f r 0 = 0) :
    coefficient ⟨b, cost, entries.mapValues f⟩ r = f r (coefficient ⟨b, cost, entries⟩ r) := by
  simp only [coefficient, Entries.lookup_mapValues]
  cases entries.lookup r with
  | none => exact h.symm
  | some v => rfl

/-- Neither bounds nor cost matter to the coefficients. -/
theorem coefficient_eq (c : Column Rat) (b : Bounds Rat) (cost : Rat) (r : Nat) :
    coefficient ⟨b, cost, c.entries⟩ r = c.coefficient r := rfl

theorem coefficient_neg (c : Column Rat) (b : Bounds Rat) (cost : Rat) (r : Nat) :
    coefficient ⟨b, cost, c.entries.mapValues fun _ x => -x⟩ r = -c.coefficient r :=
  coefficient_mapValues b cost c.entries neg_zero

theorem coefficient_eq_zero {c : Column Rat} {r : Nat} (h : ∀ e ∈ c.entries, e.1 ≠ r) :
    c.coefficient r = 0 := by
  rw [coefficient, Entries.lookup_eq_none h]
  rfl

theorem coefficient_concat {c : Column Rat} (b : Bounds Rat) (cost : Rat) {row : Nat}
    (value : Rat) (h : ∀ e ∈ c.entries, e.1 < row) (r : Nat) :
    coefficient ⟨b, cost, c.entries ++ [(row, value)]⟩ r =
      if r = row then value else c.coefficient r := by
  simp only [coefficient, List.lookup_append, Entries.lookup_cons, List.lookup_nil]
  split
  · next hr =>
    rw [hr, Entries.lookup_eq_none fun e he => (h e he).ne]
    rfl
  · rw [Option.or_none]

end Column

/-! ## Bounds that move -/

namespace Bounds

variable {b : Bounds Rat}

theorem isUnboundedBelow_iff : b.isUnboundedBelow = true ↔ b.lower = -sentinel :=
  decide_eq_true_iff

theorem isUnboundedAbove_iff : b.isUnboundedAbove = true ↔ b.upper = sentinel :=
  decide_eq_true_iff

/-- The ends that bounds of a kind have. -/
inductive Ends : BoundKind → Rat → Rat → Prop where
  | free : Ends .free (-sentinel) sentinel
  | upper (u : Rat) : Ends .upper (-sentinel) u
  | lower (l : Rat) : Ends .lower l sentinel
  | fixed (x : Rat) : Ends .fixed x x
  | double {l u : Rat} (hl : l ≠ -sentinel) (hu : u ≠ sentinel) : Ends .double l u

theorem kind_ends (l u : Rat) : Ends (kind ⟨l, u⟩) l u := by
  have hl : isUnboundedBelow ⟨l, u⟩ = true ↔ l = -sentinel := isUnboundedBelow_iff
  have hu : isUnboundedAbove ⟨l, u⟩ = true ↔ u = sentinel := isUnboundedAbove_iff
  unfold kind
  cases hb : isUnboundedBelow ⟨l, u⟩ <;> cases ha : isUnboundedAbove ⟨l, u⟩ <;> rw [hb] at hl <;>
    rw [ha] at hu
  · change Ends (if decide (l = u) = true then .fixed else .double) l u
    by_cases h : l = u
    · subst h
      rw [if_pos (decide_eq_true rfl)]
      exact .fixed l
    · rw [if_neg (mt of_decide_eq_true h)]
      exact .double (fun h => Bool.noConfusion (hl.mpr h)) fun h => Bool.noConfusion (hu.mpr h)
  · obtain rfl := hu.mp rfl
    exact .lower l
  · obtain rfl := hl.mp rfl
    exact .upper u
  · obtain rfl := hl.mp rfl
    obtain rfl := hu.mp rfl
    exact .free

/-- The finite bound that a variable is measured from, zero for a free one. -/
def origin (b : Bounds Rat) : Rat :=
  if b.isUnboundedBelow then if b.isUnboundedAbove then 0 else b.upper else b.lower

/-- What the equality of a row and its slack asks of the left side. -/
def Enforces (b : Bounds Rat) (v : Rat) : Prop :=
  if b.isUnboundedBelow then v ≤ b.upper
  else if b.isUnboundedAbove then b.lower ≤ v
  else b.lower ≤ v ∧ v ≤ b.upper

theorem enforces_iff (h : b.kind ≠ .free) (v : Rat) : b.Enforces v ↔ b.Admits v := by
  unfold Enforces Admits
  unfold kind at h
  cases hb : b.isUnboundedBelow <;> cases ha : b.isUnboundedAbove
  · simp
  · simp
  · simp
  · simp [hb, ha] at h

/-- Moving the finite sides by `a` does not make one of them infinite. -/
structure Movable (b : Bounds Rat) (a : Rat) : Prop where
  lower : b.isUnboundedBelow = false → b.lower - a ≠ -sentinel
  upper : b.isUnboundedAbove = false → b.upper - a ≠ sentinel

@[simp]
theorem shiftDown_zero (b : Bounds Rat) : b.shiftDown 0 = b := by
  simp [shiftDown]

namespace Movable

variable {a : Rat}

theorem below (h : b.Movable a) : (b.shiftDown a).isUnboundedBelow = b.isUnboundedBelow := by
  cases hb : b.isUnboundedBelow
  · refine Bool.eq_false_iff.mpr fun e => h.lower hb ?_
    rw [← isUnboundedBelow_iff.mp e, shiftDown, hb]
    rfl
  · rw [isUnboundedBelow_iff, shiftDown, hb]
    exact isUnboundedBelow_iff.mp hb

theorem above (h : b.Movable a) : (b.shiftDown a).isUnboundedAbove = b.isUnboundedAbove := by
  cases hb : b.isUnboundedAbove
  · refine Bool.eq_false_iff.mpr fun e => h.upper hb ?_
    rw [← isUnboundedAbove_iff.mp e, shiftDown, hb]
    rfl
  · rw [isUnboundedAbove_iff, shiftDown, hb]
    exact isUnboundedAbove_iff.mp hb

theorem shiftDown_shiftDown (h : b.Movable a) (c : Rat) :
    (b.shiftDown a).shiftDown c = b.shiftDown (a + c) := by
  unfold shiftDown
  rw [show (Bounds.mk (if b.isUnboundedBelow then b.lower else b.lower - a)
    (if b.isUnboundedAbove then b.upper else b.upper - a)).isUnboundedBelow = b.isUnboundedBelow
      from h.below,
    show (Bounds.mk (if b.isUnboundedBelow then b.lower else b.lower - a)
    (if b.isUnboundedAbove then b.upper else b.upper - a)).isUnboundedAbove = b.isUnboundedAbove
      from h.above]
  cases b.isUnboundedBelow <;> cases b.isUnboundedAbove <;> simp [sub_sub]

theorem enforces (h : b.Movable a) (hk : b.kind ≠ .free) (v : Rat) :
    (b.shiftDown a).Enforces v ↔ b.Enforces (v + a) := by
  unfold Enforces
  unfold kind at hk
  rw [h.below, h.above, shiftDown]
  cases hb : b.isUnboundedBelow <;> cases ha : b.isUnboundedAbove
  · simp [le_sub_iff_add_le]
  · simp
  · simp [le_sub_iff_add_le]
  · simp [hb, ha] at hk

end Movable
end Bounds

/-! ## Rows that move -/

namespace Substitution

/-- Every row moves by its coefficient times the constant part of the variable. -/
theorem shiftRows_getElem? (rows : List (Bounds Rat)) {entries : Entries Rat}
    (h : entries.Ordered) (constant : Rat) (r : Nat) : (shiftRows rows entries constant)[r]? =
      (rows[r]?).map fun b => b.shiftDown ((entries.lookup r).getD 0 * constant) := by
  induction entries generalizing rows with
  | nil => simp [shiftRows]
  | cons e rest ih =>
    obtain ⟨q, v⟩ := e
    obtain ⟨above, tail⟩ := List.pairwise_cons.mp h
    have ih := ih (rows.modify q fun b => b.shiftDown (v * constant)) tail
    rw [shiftRows, List.foldl_cons, ← shiftRows, ih, List.getElem?_modify, Entries.lookup_cons]
    by_cases hq : r = q
    · subst hq
      have hnone := Entries.lookup_eq_none fun e he => (above e he).ne'
      simp [hnone]
      rfl
    · simp [hq, Ne.symm hq]

@[simp]
theorem shiftRows_length (rows : List (Bounds Rat)) (entries : Entries Rat) (constant : Rat) :
    (shiftRows rows entries constant).length = rows.length := by
  induction entries generalizing rows with
  | nil => rfl
  | cons e rest ih => rw [shiftRows, List.foldl_cons, ← shiftRows, ih, List.length_modify]

end Substitution

end LinearProgramming
