import LinearProgramming.Proofs.Canonical.Cells

/-!
# Ranges are split

* `withUpperParts_coefficient`, `withUpperParts_upper`: the upper part of a range has the cells of
  its row;
* `splitRanges_enforced`: a range and its two halves enforce the same.
-/

namespace LinearProgramming

namespace Program

/-- The point keeps every row within what its equality with a slack allows. -/
def Enforced (p : Program Rat) (x : Nat → Rat) : Prop :=
  ∀ (r : Nat) (b : Bounds Rat), p.rows[r]? = some b → b.Enforces (p.leftSide x r)

variable {p : Program Rat}

/-- Rows with the same coefficients have the same left sides. -/
theorem leftSide_congr {f : Column Rat → Column Rat} {r k : Nat}
    (hf : ∀ c ∈ p.columns, (f c).coefficient r = c.coefficient k) (x : Nat → Rat) :
    weigh ((p.columns.map f).map fun c => c.coefficient r) x = p.leftSide x k := by
  rw [leftSide, List.map_map]
  congr 1
  exact List.map_congr_left hf

/-! ## Upper parts -/

/-- The position of an entry among those that are selected. -/
theorem getElem?_rank {α : Type} {f : α → Bool} {xs : List α} {r : Nat} {x : α}
    (hx : xs[r]? = some x) (hf : f x = true) :
    (xs.filter f)[((xs.take r).filter f).length]? = some x := by
  obtain ⟨hr, rfl⟩ := List.getElem?_eq_some_iff.mp hx
  have hsplit : xs.filter f = (xs.take r).filter f ++ (xs.drop r).filter f := by
    rw [← List.filter_append, List.take_append_drop]
  rw [hsplit, List.getElem?_append_right le_rfl, Nat.sub_self, List.drop_eq_getElem_cons hr,
    List.filter_cons_of_pos hf]
  rfl

theorem exists_rank {α : Type} {f : α → Bool} {xs : List α} {k : Nat} {x : α}
    (h : (xs.filter f)[k]? = some x) :
    ∃ r, xs[r]? = some x ∧ f x = true ∧ ((xs.take r).filter f).length = k := by
  induction xs generalizing k with
  | nil => simp at h
  | cons y ys ih =>
    by_cases hy : f y = true
    · rw [List.filter_cons_of_pos hy] at h
      cases k with
      | zero =>
        obtain rfl := Option.some.inj h
        exact ⟨0, rfl, hy, rfl⟩
      | succ k =>
        obtain ⟨r, hr, hx, hk⟩ := ih h
        refine ⟨r + 1, hr, hx, ?_⟩
        simp only [List.take_succ_cons, List.filter_cons_of_pos hy, List.length_cons, hk]
    · rw [List.filter_cons_of_neg hy] at h
      obtain ⟨r, hr, hx, hk⟩ := ih h
      refine ⟨r + 1, hr, hx, ?_⟩
      simp only [List.take_succ_cons, List.filter_cons_of_neg hy, hk]

theorem rank_lt {α : Type} {f : α → Bool} {xs : List α} {r k : Nat} {x : α}
    (hx : xs[r]? = some x) (hf : f x = true) (hk : r < k) :
    ((xs.take r).filter f).length < ((xs.take k).filter f).length := by
  have hsub : (xs.take (r + 1)).Sublist (xs.take k) := List.take_sublist_take_left hk
  have hle := (hsub.filter f).length_le
  rw [List.take_add_one, hx, List.filter_append, List.length_append] at hle
  simp only [Option.toList_some, List.filter_cons_of_pos hf, List.filter_nil,
    List.length_singleton] at hle
  omega

theorem upperPart?_eq_some {rows : List (Bounds Rat)} {r k : Nat} :
    upperPart? rows r = some k ↔ ∃ b, rows[r]? = some b ∧ isRange b = true ∧
      k = rows.length + ((rows.take r).filter isRange).length := by
  unfold upperPart?
  cases rows[r]? with
  | none => simp
  | some b =>
    dsimp only
    constructor
    · intro h
      split at h
      · next hr => exact ⟨b, rfl, hr, (Option.some.inj h).symm⟩
      · cases h
    · rintro ⟨c, hc, hr, rfl⟩
      obtain rfl := Option.some.inj hc
      simp [hr]

/-- Upper parts follow after the rows, one for each range. -/
theorem upperPart?_bounds {rows : List (Bounds Rat)} {r k : Nat} (h : upperPart? rows r = some k) :
    rows.length ≤ k ∧ k < rows.length + (rows.filter isRange).length := by
  obtain ⟨b, hb, hr, rfl⟩ := upperPart?_eq_some.mp h
  obtain ⟨hlt, -⟩ := List.getElem?_eq_some_iff.mp (getElem?_rank hb hr)
  omega

theorem upperPart?_injective {rows : List (Bounds Rat)} {r q k : Nat}
    (hr : upperPart? rows r = some k) (hq : upperPart? rows q = some k) : r = q := by
  obtain ⟨b, hb, hbr, rfl⟩ := upperPart?_eq_some.mp hr
  obtain ⟨c, hc, hcr, he⟩ := upperPart?_eq_some.mp hq
  rcases Nat.lt_trichotomy r q with hlt | heq | hlt
  · have := rank_lt hb hbr hlt
    omega
  · exact heq
  · have := rank_lt hc hcr hlt
    omega

/-- A column with the cells of upper parts. -/
def withUpperParts (rows : List (Bounds Rat)) (c : Column Rat) : Column Rat :=
  { c with entries := c.entries ++
      c.entries.filterMap fun (r, x) => (upperPart? rows r).map fun r' => (r', x) }

theorem mem_upperParts {rows : List (Bounds Rat)} {entries : Entries Rat} {e : Nat × Rat}
    (h : e ∈ entries.filterMap fun (r, x) => (upperPart? rows r).map fun r' => (r', x)) :
    ∃ r, upperPart? rows r = some e.1 := by
  obtain ⟨⟨r, x⟩, -, he⟩ := List.mem_filterMap.mp h
  obtain ⟨k, hk, rfl⟩ := Option.map_eq_some_iff.mp he
  exact ⟨r, hk⟩

theorem withUpperParts_coefficient (rows : List (Bounds Rat)) (c : Column Rat) {r : Nat}
    (hr : r < rows.length) : (withUpperParts rows c).coefficient r = c.coefficient r := by
  have hnone : List.lookup r (c.entries.filterMap
      fun (q, x) => (upperPart? rows q).map fun r' => (r', x)) = none := by
    refine Entries.lookup_eq_none fun e he => ?_
    obtain ⟨q, hq⟩ := mem_upperParts he
    have := (upperPart?_bounds hq).1
    omega
  rw [Column.coefficient, withUpperParts, List.lookup_append, hnone, Option.or_none]
  rfl

theorem withUpperParts_upper {rows : List (Bounds Rat)} {c : Column Rat}
    (hc : ∀ e ∈ c.entries, e.1 < rows.length) {r k : Nat} (hk : upperPart? rows r = some k) :
    (withUpperParts rows c).coefficient k = c.coefficient r := by
  have hnone : c.entries.lookup k = none := by
    refine Entries.lookup_eq_none fun e he => ?_
    have := (upperPart?_bounds hk).1
    have := hc e he
    omega
  rw [Column.coefficient, withUpperParts, List.lookup_append, hnone, Option.none_or]
  exact congrArg (Option.getD · 0)
    (Entries.lookup_filterMap (fun r q k => upperPart?_injective) hk c.entries)

theorem splitRanges_leftSide (x : Nat → Rat) {r : Nat} (hr : r < p.rowCount) :
    p.splitRanges.leftSide x r = p.leftSide x r :=
  leftSide_congr (fun c _ => withUpperParts_coefficient p.rows c hr) x

theorem splitRanges_leftSide_upper (hp : p.Stored) (x : Nat → Rat) {r k : Nat}
    (hk : upperPart? p.rows r = some k) : p.splitRanges.leftSide x k = p.leftSide x r :=
  leftSide_congr (fun c hc => withUpperParts_upper (hp c hc).2 hk) x

theorem splitRanges_rows {r : Nat} (hr : r < p.rowCount) : p.splitRanges.rows[r]? =
    (p.rows[r]?).map fun b => if isRange b then ⟨b.lower, Scalar.infinity⟩ else b := by
  have hl : r < (p.rows.map fun b =>
      if isRange b then (⟨b.lower, Scalar.infinity⟩ : Bounds Rat) else b).length := by
    rwa [List.length_map]
  simp only [splitRanges, List.getElem?_append_left hl, List.getElem?_map]

theorem splitRanges_rows_upper (r : Nat) : p.splitRanges.rows[p.rowCount + r]? =
    ((p.rows.filter isRange)[r]?).map fun b => .upTo b.upper := by
  have hl : (p.rows.map fun b =>
      if isRange b then (⟨b.lower, Scalar.infinity⟩ : Bounds Rat) else b).length ≤
        p.rowCount + r := by
    rw [List.length_map]
    exact Nat.le_add_right _ _
  rw [splitRanges, List.getElem?_append_right hl, List.length_map, rowCount,
    Nat.add_sub_cancel_left, List.getElem?_map]

/-! ## Halves -/

theorem isRange_iff {b : Bounds Rat} : isRange b = true ↔
    b.isUnboundedBelow = false ∧ b.isUnboundedAbove = false ∧ b.lower ≠ b.upper := by
  unfold isRange Bounds.kind
  cases b.isUnboundedBelow <;> cases b.isUnboundedAbove <;> simp [Scalar.same]

theorem lower_eq_upper {b : Bounds Rat} (h : isRange b = false) (hb : b.isUnboundedBelow = false)
    (ha : b.isUnboundedAbove = false) : b.lower = b.upper := by
  by_contra hne
  rw [isRange_iff.mpr ⟨hb, ha, hne⟩] at h
  cases h

theorem enforces_range {b : Bounds Rat} (h : isRange b = true) (v : Rat) :
    b.Enforces v ↔ (Bounds.mk b.lower Scalar.infinity).Enforces v ∧
      (Bounds.upTo b.upper).Enforces v := by
  obtain ⟨hb, ha, -⟩ := isRange_iff.mp h
  have hlower : (Bounds.mk b.lower Scalar.infinity).isUnboundedBelow = false := hb
  have hinf : (Bounds.mk b.lower (Scalar.infinity : Rat)).isUnboundedAbove = true :=
    Bounds.isUnboundedAbove_iff.mpr rfl
  have hupper : (Bounds.upTo b.upper).isUnboundedBelow = true := Bounds.isUnboundedBelow_iff.mpr rfl
  simp only [Bounds.Enforces, hb, ha, hlower, hinf, hupper, if_true, Bool.false_eq_true, if_false]
  rfl

/-- The halves of a range enforce what the range does. -/
theorem splitRanges_enforced (hp : p.Stored) (x : Nat → Rat) :
    p.splitRanges.Enforced x ↔ p.Enforced x := by
  constructor
  · intro h r b hb
    obtain ⟨hr, -⟩ := List.getElem?_eq_some_iff.mp hb
    have hlow := h r _ ((splitRanges_rows hr).trans (by rw [hb, Option.map_some]))
    rw [splitRanges_leftSide x hr] at hlow
    by_cases hrange : isRange b = true
    · rw [if_pos hrange] at hlow
      have hk := upperPart?_eq_some.mpr ⟨b, hb, hrange, rfl⟩
      have hrow := splitRanges_rows_upper (p := p) ((p.rows.take r).filter isRange).length
      rw [getElem?_rank hb hrange, Option.map_some] at hrow
      have hup := h _ _ hrow
      rw [rowCount, splitRanges_leftSide_upper hp x hk] at hup
      exact (enforces_range hrange _).mpr ⟨hlow, hup⟩
    · rwa [if_neg hrange] at hlow
  · intro h r b hb
    by_cases hr : r < p.rowCount
    · rw [splitRanges_rows hr] at hb
      obtain ⟨a, ha, rfl⟩ := Option.map_eq_some_iff.mp hb
      rw [splitRanges_leftSide x hr]
      split
      · next hrange => exact ((enforces_range hrange _).mp (h r a ha)).1
      · exact h r a ha
    · obtain ⟨k, rfl⟩ := Nat.exists_eq_add_of_le (Nat.le_of_not_lt hr)
      rw [splitRanges_rows_upper] at hb
      obtain ⟨a, ha, rfl⟩ := Option.map_eq_some_iff.mp hb
      obtain ⟨q, hq, hrange, hk⟩ := exists_rank ha
      rw [splitRanges_leftSide_upper hp x (upperPart?_eq_some.mpr ⟨a, hq, hrange, hk ▸ rfl⟩)]
      exact ((enforces_range hrange _).mp (h q a hq)).2

/-- No range is left. -/
theorem splitRanges_kind {b : Bounds Rat} (hb : b ∈ p.splitRanges.rows) : isRange b = false := by
  rcases List.mem_append.mp hb with hb | hb
  · obtain ⟨a, -, rfl⟩ := List.mem_map.mp hb
    by_cases h : isRange a = true
    · rw [if_pos h]
      apply Bool.eq_false_iff.mpr
      intro hr
      have := (isRange_iff.mp hr).2.1
      rw [Bounds.isUnboundedAbove_iff.mpr rfl] at this
      cases this
    · rw [if_neg h]
      exact Bool.eq_false_iff.mpr h
  · obtain ⟨a, -, rfl⟩ := List.mem_map.mp hb
    apply Bool.eq_false_iff.mpr
    intro hr
    have := (isRange_iff.mp hr).1
    rw [Bounds.isUnboundedBelow_iff.mpr rfl] at this
    cases this

end Program
end LinearProgramming
