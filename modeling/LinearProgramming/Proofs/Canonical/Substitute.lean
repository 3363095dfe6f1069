import LinearProgramming.Proofs.Canonical.Cells

/-!
# One variable is replaced

Whatever kind of bounds a variable has, it is replaced by nonnegative ones so that the sums in which
it occurred only lose a constant:

* `Substitution.replace_point`: the values that were recovered before stay;
* `Substitution.replace_left`, `Substitution.replace_cost`, `Substitution.replace_rows`: the left
  sides, the costs and the rows after one more variable;
* `Substitution.Shaped`: how the parts of a substitution fit together.
-/

namespace LinearProgramming

/-- The value of a variable that a recovery reads from a point. -/
def Recovery.read (t : Recovery Rat) (position : Nat) (z : Nat → Rat) : Rat :=
  z position * t.scale + t.offset - (t.paired.elim 0 z)

namespace Substitution

/-- The point that is recovered from a point of the other program. -/
def point (s : Substitution Rat) (z : Nat → Rat) (j : Nat) : Rat :=
  (s.recoveries.getD j ⟨none, 0, 0⟩).read j z

/-- The sum of weights of the columns, where partners follow after `n` replaced variables. -/
def total (s : Substitution Rat) (n : Nat) (weight : Column Rat → Rat) (z : Nat → Rat) : Rat :=
  weigh (s.replaced.map weight) z + weigh (s.partners.map weight) fun q => z (n + q)

/-- The left side of a row. -/
def left (s : Substitution Rat) (n : Nat) (z : Nat → Rat) (r : Nat) : Rat :=
  s.total n (fun c => c.coefficient r) z

/-- The column is nonnegative, and its cells lie in the first `m` rows. -/
structure Placed (m : Nat) (c : Column Rat) : Prop where
  bounds : c.bounds = .nonnegative
  ordered : c.entries.Ordered
  inside : ∀ e ∈ c.entries, e.1 < m

/-- The parts of a substitution of the first `i` variables of a program fit together. -/
structure Shaped (p : Program Rat) (i : Nat) (s : Substitution Rat) : Prop where
  replaced : s.replaced.length = i
  recoveries : s.recoveries.length = i
  pairs : ∀ t ∈ s.recoveries, ∀ k, t.paired = some k →
    p.variableCount ≤ k ∧ k < p.variableCount + s.partners.length
  placed : ∀ c ∈ s.replaced ++ s.partners, Placed s.rows.length c
  rows : p.rowCount ≤ s.rows.length

variable {s : Substitution Rat} {n i : Nat} {c : Column Rat}

/-! ## Kinds of variables -/

theorem replace_shift (hb : c.bounds.isUnboundedBelow = false) : s.replace n c = s.shift c := by
  simp [replace, hb]

theorem replace_reflect (hb : c.bounds.isUnboundedBelow = true)
    (ha : c.bounds.isUnboundedAbove = false) : s.replace n c = s.reflect c := by
  simp [replace, hb, ha]

theorem replace_split (hb : c.bounds.isUnboundedBelow = true)
    (ha : c.bounds.isUnboundedAbove = true) : s.replace n c = s.split n c := by
  simp [replace, hb, ha]

/-! ## Sums -/

/-- The factor of the new variable, and the variable that it is paired with. -/
theorem total_split (hi : s.replaced.length = i) (weight : Column Rat → Rat) (z : Nat → Rat) :
    (s.split n c).total n weight z = s.total n weight z +
      weight { c with bounds := .nonnegative } * z i +
        weight ⟨.nonnegative, -c.cost, c.entries.mapValues fun _ x => -x⟩ *
          z (n + s.partners.length) := by
  simp only [total, split, List.map_append, List.map_cons, List.map_nil, weigh_concat,
    List.length_map, hi]
  ring

theorem total_reflect (hi : s.replaced.length = i) (weight : Column Rat → Rat) (z : Nat → Rat) :
    (s.reflect c).total n weight z = s.total n weight z +
      weight ⟨.nonnegative, -c.cost, c.entries.mapValues fun _ x => -x⟩ * z i := by
  simp only [total, reflect, List.map_append, List.map_cons, List.map_nil, weigh_concat,
    List.length_map, hi]
  ring

/-- The column that a variable with a lower bound leaves. -/
def shifted (s : Substitution Rat) (c : Column Rat) : Column Rat :=
  ⟨.nonnegative, c.cost,
    if c.bounds.isUnboundedAbove then c.entries else c.entries ++ [(s.rows.length, 1)]⟩

theorem shift_replaced : (s.shift c).replaced = s.replaced ++ [s.shifted c] := by
  cases h : c.bounds.isUnboundedAbove <;> simp [shift, shifted, h]

theorem total_shift (hi : s.replaced.length = i) (weight : Column Rat → Rat) (z : Nat → Rat) :
    (s.shift c).total n weight z = s.total n weight z + weight (s.shifted c) * z i := by
  rw [total, shift_replaced, List.map_append, List.map_cons, List.map_nil, weigh_concat,
    List.length_map, hi, total, shift]
  ring

theorem shifted_coefficient (he : ∀ e ∈ c.entries, e.1 < s.rows.length) (r : Nat) :
    (s.shifted c).coefficient r =
      if c.bounds.isUnboundedAbove = false ∧ r = s.rows.length then 1 else c.coefficient r := by
  unfold shifted
  cases c.bounds.isUnboundedAbove
  · simp only [Bool.false_eq_true, if_false, true_and]
    exact Column.coefficient_concat _ _ _ he r
  · simp only [if_true, Bool.true_eq_false, false_and, if_false]
    exact Column.coefficient_eq c _ _ r

/-! ## Points -/

theorem point_of_lt {ts : List (Recovery Rat)} (hs : ∃ t, ts = s.recoveries ++ [t]) {j : Nat}
    (hj : j < s.recoveries.length) (z : Nat → Rat) :
    (ts.getD j ⟨none, 0, 0⟩).read j z = s.point z j := by
  obtain ⟨t, rfl⟩ := hs
  rw [point, List.getD_append _ _ _ _ hj]

theorem replace_recoveries : ∃ t, (s.replace n c).recoveries = s.recoveries ++ [t] := by
  unfold replace
  split
  · split
    · exact ⟨_, rfl⟩
    · exact ⟨_, rfl⟩
  · exact ⟨_, rfl⟩

/-- Recovering a variable does not depend on those that are replaced later. -/
theorem replace_point {j : Nat} (hj : j < s.recoveries.length) (z : Nat → Rat) :
    (s.replace n c).point z j = s.point z j :=
  point_of_lt replace_recoveries hj z

theorem split_point (hi : s.recoveries.length = i) (z : Nat → Rat) :
    (s.split n c).point z i = z i - z (n + s.partners.length) := by
  simp [point, split, ← hi, Recovery.read]

theorem reflect_point (hi : s.recoveries.length = i) (z : Nat → Rat) :
    (s.reflect c).point z i = c.bounds.upper - z i := by
  simp [point, reflect, ← hi, Recovery.read]
  ring

theorem shift_point (hi : s.recoveries.length = i) (z : Nat → Rat) :
    (s.shift c).point z i = z i + c.bounds.lower := by
  simp [point, shift, ← hi, Recovery.read]

/-! ## One more variable -/

theorem replace_total (hr : s.replaced.length = i) (ht : s.recoveries.length = i)
    {weight : Column Rat → Rat} {a : Rat} (hsame : weight { c with bounds := .nonnegative } = a)
    (hneg : weight ⟨.nonnegative, -c.cost, c.entries.mapValues fun _ x => -x⟩ = -a)
    (hshift : weight (s.shifted c) = a) (z : Nat → Rat) :
    (s.replace n c).total n weight z =
      s.total n weight z + a * ((s.replace n c).point z i - c.bounds.origin) := by
  unfold replace Bounds.origin
  cases c.bounds.isUnboundedBelow
  · simp only [Bool.false_eq_true, if_false]
    rw [total_shift hr, shift_point ht, hshift]
    ring
  · cases c.bounds.isUnboundedAbove
    · simp only [Bool.false_eq_true, if_false, if_true]
      rw [total_reflect hr, reflect_point ht, hneg]
      ring
    · simp only [if_true]
      rw [total_split hr, split_point ht, hsame, hneg]
      ring

theorem replace_cost (hr : s.replaced.length = i) (ht : s.recoveries.length = i) (z : Nat → Rat) :
    (s.replace n c).total n (·.cost) z = s.total n (·.cost) z +
      c.cost * ((s.replace n c).point z i - c.bounds.origin) :=
  replace_total hr ht rfl rfl rfl z

/-- In the rows of the program, a variable counts with its distance from where it is measured. -/
theorem replace_left (hr : s.replaced.length = i) (ht : s.recoveries.length = i)
    (he : ∀ e ∈ c.entries, e.1 < s.rows.length) {r : Nat} (hlt : r < s.rows.length)
    (z : Nat → Rat) : (s.replace n c).left n z r = s.left n z r +
      c.coefficient r * ((s.replace n c).point z i - c.bounds.origin) := by
  refine replace_total hr ht (Column.coefficient_eq c _ _ r) (Column.coefficient_neg c _ _ r) ?_ z
  rw [shifted_coefficient he, if_neg fun h => hlt.ne h.2]

/-- The variable leaves an upper bound as a new row. -/
def LeavesRow (c : Column Rat) : Prop :=
  c.bounds.isUnboundedBelow = false ∧ c.bounds.isUnboundedAbove = false

theorem replace_rows (he : c.entries.Ordered) {r : Nat} (hr : r < s.rows.length) :
    (s.replace n c).rows[r]? =
      (s.rows[r]?).map fun b => b.shiftDown (c.coefficient r * c.bounds.origin) := by
  unfold replace Bounds.origin
  cases c.bounds.isUnboundedBelow
  · simp only [Bool.false_eq_true, if_false, shift]
    split
    · rw [List.getElem?_append_left (by simpa using hr)]
      exact shiftRows_getElem? s.rows he _ r
    · exact shiftRows_getElem? s.rows he _ r
  · cases c.bounds.isUnboundedAbove
    · simp only [Bool.false_eq_true, if_false, if_true]
      exact shiftRows_getElem? s.rows he _ r
    · simp [split]

theorem replace_rows_leavesRow (h : LeavesRow c) : (s.replace n c).rows =
    shiftRows s.rows c.entries c.bounds.lower ++ [.upTo (c.bounds.upper - c.bounds.lower)] := by
  simp [replace, shift, h.1, h.2]

theorem replace_rows_length_leavesRow (h : LeavesRow c) :
    (s.replace n c).rows.length = s.rows.length + 1 := by
  simp [replace_rows_leavesRow h]

theorem replace_rows_length (h : ¬ LeavesRow c) : (s.replace n c).rows.length = s.rows.length := by
  unfold replace
  cases hb : c.bounds.isUnboundedBelow
  · cases ha : c.bounds.isUnboundedAbove
    · exact absurd ⟨hb, ha⟩ h
    · simp [shift, ha]
  · cases c.bounds.isUnboundedAbove
    · simp [reflect]
    · simp [split]

theorem rows_length_le : s.rows.length ≤ (s.replace n c).rows.length := by
  by_cases h : LeavesRow c
  · simp [replace_rows_leavesRow h]
  · rw [replace_rows_length h]

theorem replace_partners_le : s.partners.length ≤ (s.replace n c).partners.length := by
  unfold replace
  split
  · split
    · simp [split]
    · exact le_rfl
  · exact le_rfl

/-! ## Shapes -/

theorem Placed.mono {m k : Nat} {d : Column Rat} (h : Placed m d) (hm : m ≤ k) : Placed k d :=
  ⟨h.bounds, h.ordered, fun e he => (h.inside e he).trans_le hm⟩

theorem placed_neg {m : Nat} (cost : Rat) (ho : c.entries.Ordered)
    (he : ∀ e ∈ c.entries, e.1 < m) :
    Placed m ⟨.nonnegative, cost, c.entries.mapValues fun _ x => -x⟩ := by
  refine ⟨rfl, Entries.ordered_mapValues (fun _ x => -x) ho, ?_⟩
  intro e hm
  obtain ⟨q, hq, rfl⟩ := List.mem_map.mp hm
  exact he q hq

theorem placed_shifted (hb : c.bounds.isUnboundedBelow = false) (ho : c.entries.Ordered)
    (he : ∀ e ∈ c.entries, e.1 < s.rows.length) :
    Placed (s.replace n c).rows.length (s.shifted c) := by
  unfold shifted
  cases ha : c.bounds.isUnboundedAbove
  · refine ⟨rfl, Entries.ordered_concat ho he, ?_⟩
    intro e hm
    rw [replace_rows_length_leavesRow ⟨hb, ha⟩]
    rcases List.mem_append.mp hm with hm | hm
    · exact (he e hm).trans (by omega)
    · rw [List.mem_singleton.mp hm]
      omega
  · exact ⟨rfl, ho, fun e hm => (he e hm).trans_le rows_length_le⟩

/-- The columns after one more variable: those before, and new ones that are placed too. -/
theorem mem_replace (ho : c.entries.Ordered) (he : ∀ e ∈ c.entries, e.1 < s.rows.length)
    {d : Column Rat} (hd : d ∈ (s.replace n c).replaced ++ (s.replace n c).partners) :
    d ∈ s.replaced ++ s.partners ∨ Placed (s.replace n c).rows.length d := by
  have hsame : Placed s.rows.length { c with bounds := .nonnegative } := ⟨rfl, ho, he⟩
  have hneg := placed_neg (-c.cost) ho he
  have hle := rows_length_le (s := s) (n := n) (c := c)
  rw [List.mem_append] at hd ⊢
  cases hb : c.bounds.isUnboundedBelow
  · rw [replace_shift hb, shift_replaced, List.mem_append, List.mem_singleton] at hd
    rcases hd with (hd | rfl) | hd
    · exact .inl (.inl hd)
    · exact .inr (placed_shifted hb ho he)
    · exact .inl (.inr hd)
  · cases ha : c.bounds.isUnboundedAbove
    · rw [replace_reflect hb ha, reflect, List.mem_append, List.mem_singleton] at hd
      rcases hd with (hd | rfl) | hd
      · exact .inl (.inl hd)
      · exact .inr (hneg.mono hle)
      · exact .inl (.inr hd)
    · rw [replace_split hb ha, split, List.mem_append, List.mem_singleton, List.mem_append,
        List.mem_singleton] at hd
      rcases hd with (hd | rfl) | hd | rfl
      · exact .inl (.inl hd)
      · exact .inr (hsame.mono hle)
      · exact .inl (.inr hd)
      · exact .inr (hneg.mono hle)

@[simp]
theorem replace_replaced_length : (s.replace n c).replaced.length = s.replaced.length + 1 := by
  unfold replace
  split
  · split <;> simp [split, reflect]
  · simp [shift]

theorem replace_pairs {t : Recovery Rat} (ht : t ∈ (s.replace n c).recoveries) {k : Nat}
    (hk : t.paired = some k) :
    t ∈ s.recoveries ∨ (k = n + s.partners.length ∧
      (s.replace n c).partners.length = s.partners.length + 1) := by
  unfold replace at ht ⊢
  split at ht
  · split at ht
    · next hb ha =>
      rcases List.mem_append.mp ht with ht | ht
      · exact .inl ht
      · rw [List.mem_singleton.mp ht] at hk
        exact .inr ⟨(Option.some.inj hk).symm, by simp [hb, ha, split]⟩
    · rcases List.mem_append.mp ht with ht | ht
      · exact .inl ht
      · rw [List.mem_singleton.mp ht] at hk
        cases hk
  · rcases List.mem_append.mp ht with ht | ht
    · exact .inl ht
    · rw [List.mem_singleton.mp ht] at hk
      cases hk

theorem Shaped.replace {p : Program Rat} (h : s.Shaped p i) (ho : c.entries.Ordered)
    (he : ∀ e ∈ c.entries, e.1 < p.rowCount) :
    (s.replace p.variableCount c).Shaped p (i + 1) where
  replaced := by rw [replace_replaced_length, h.replaced]
  recoveries := by
    obtain ⟨t, ht⟩ := replace_recoveries (s := s) (n := p.variableCount) (c := c)
    simp [ht, h.recoveries]
  pairs t ht k hk := by
    rcases replace_pairs ht hk with ht | ⟨rfl, hp⟩
    · have := h.pairs t ht k hk
      exact ⟨this.1, this.2.trans_le (Nat.add_le_add_left replace_partners_le _)⟩
    · omega
  placed d hd := by
    rcases mem_replace ho (fun e hm => (he e hm).trans_le h.rows) hd with hd | hd
    · exact (h.placed d hd).mono rows_length_le
    · exact hd
  rows := h.rows.trans rows_length_le

end Substitution
end LinearProgramming
