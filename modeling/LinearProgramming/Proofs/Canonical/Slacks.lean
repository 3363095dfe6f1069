import LinearProgramming.Proofs.Canonical.Ranges

/-!
# Rows become equalities

Each pass keeps the points that it is about:

* `enforced_of_balanced`, `exists_balanced`: the slack of an equality is what its row leaves open;
* `makeNonnegative_balanced`, `orient_balanced`: signs do not matter to equalities.
-/

namespace LinearProgramming

namespace Program

/-- The point solves every row, read as an equality. -/
def Balanced (p : Program Rat) (x : Nat → Rat) : Prop :=
  ∀ (r : Nat) (b : Bounds Rat), p.rows[r]? = some b → p.leftSide x r = b.lower

variable {p : Program Rat}

/-! ## Slacks -/

/-- The columns of slacks for rows that are numbered from `k` on. -/
def slackColumns (rows : List (Bounds Rat)) (k : Nat) : List (Column Rat) :=
  (rows.zipIdx k).filterMap fun (b, r) =>
    (slack? b).map fun x => ⟨.nonnegative, 0, [(r, x)]⟩

/-- What the slacks add to a row. -/
def slackSum (rows : List (Bounds Rat)) (k : Nat) (t : Nat → Rat) (r : Nat) : Rat :=
  weigh ((slackColumns rows k).map fun c => c.coefficient r) t

theorem slackColumns_cons (b : Bounds Rat) (rows : List (Bounds Rat)) (k : Nat) :
    slackColumns (b :: rows) k =
      ((slack? b).map fun x => (⟨.nonnegative, 0, [(k, x)]⟩ : Column Rat)).toList ++
        slackColumns rows (k + 1) := by
  unfold slackColumns
  rw [List.zipIdx_cons, List.filterMap_cons]
  dsimp only
  cases slack? b <;> rfl

theorem mem_slackColumns {rows : List (Bounds Rat)} {k : Nat} {c : Column Rat}
    (h : c ∈ slackColumns rows k) : c.bounds = .nonnegative ∧ c.cost = 0 ∧
      ∃ r x, c.entries = [(r, x)] ∧ k ≤ r ∧ r < k + rows.length := by
  obtain ⟨⟨b, r⟩, hm, hc⟩ := List.mem_filterMap.mp h
  obtain ⟨x, -, rfl⟩ := Option.map_eq_some_iff.mp hc
  obtain ⟨hk, hlt, -⟩ := List.mem_zipIdx hm
  exact ⟨rfl, rfl, r, x, rfl, hk, by omega⟩

theorem slackSum_eq_zero {rows : List (Bounds Rat)} {k r : Nat} (hr : r < k) (t : Nat → Rat) :
    slackSum rows k t r = 0 := by
  refine weigh_eq_zero (fun w hw => ?_) t
  obtain ⟨c, hc, rfl⟩ := List.mem_map.mp hw
  obtain ⟨-, -, q, x, he, hq, -⟩ := mem_slackColumns hc
  apply Column.coefficient_eq_zero
  intro e hm
  rw [he, List.mem_singleton] at hm
  rw [hm]
  exact (hr.trans_le hq).ne'

/-- What a slack may add to the row, so that the sum is its right-hand side. -/
def Completes (b : Bounds Rat) (w : Rat) : Prop :=
  if b.isUnboundedBelow then 0 ≤ w else if b.isUnboundedAbove then w ≤ 0 else w = 0

theorem enforces_iff_completes {b : Bounds Rat} (h : isRange b = false) (v : Rat) :
    b.Enforces v ↔ Completes b ((tighten b).lower - v) := by
  unfold Bounds.Enforces Completes tighten
  cases hb : b.isUnboundedBelow
  · cases ha : b.isUnboundedAbove
    · have heq := lower_eq_upper h hb ha
      simp only [Bool.false_eq_true, if_false]
      rw [sub_eq_zero, ← heq]
      exact ⟨fun hv => le_antisymm hv.1 hv.2, fun hv => ⟨hv.le, hv.ge⟩⟩
    · simp
  · simp

theorem completes_cons {b : Bounds Rat} {t : Nat → Rat} (ht : 0 ≤ t 0) :
    Completes b (((slack? b).getD 0) * t 0) := by
  unfold Completes slack?
  cases b.isUnboundedBelow
  · cases b.isUnboundedAbove
    · simp
    · simp [ht]
  · simp [ht]

/-- A row is completed by its own slack only. -/
theorem slackSum_cons (b : Bounds Rat) (rows : List (Bounds Rat)) (k : Nat) (t : Nat → Rat)
    (r : Nat) : slackSum (b :: rows) k t r =
      (if r = k then (slack? b).getD 0 else 0) * t 0 +
        slackSum rows (k + 1) (fun i => t ((slack? b).toList.length + i)) r := by
  unfold slackSum
  rw [slackColumns_cons]
  cases slack? b with
  | none => simp
  | some x =>
    have hx : (⟨.nonnegative, 0, [(k, x)]⟩ : Column Rat).coefficient r =
        if r = k then x else 0 := by
      rw [Column.coefficient, Entries.lookup_cons]
      split <;> rfl
    rw [Option.map_some, Option.toList_some, List.map_append, weigh_append]
    simp [weigh, hx]

/-- Nonnegative slacks complete every row. -/
theorem completes_slackSum {rows : List (Bounds Rat)} {t : Nat → Rat} (ht : ∀ v, 0 ≤ t v) (k : Nat)
    {i : Nat} {b : Bounds Rat} (hb : rows[i]? = some b) :
    Completes b (slackSum rows k t (k + i)) := by
  induction rows generalizing k t i with
  | nil => simp at hb
  | cons a rows ih =>
    rw [slackSum_cons]
    cases i with
    | zero =>
      obtain rfl := Option.some.inj hb
      rw [Nat.add_zero, if_pos rfl, slackSum_eq_zero (by omega), add_zero]
      exact completes_cons (ht 0)
    | succ i =>
      rw [if_neg (by omega), zero_mul, zero_add, show k + (i + 1) = k + 1 + i by omega]
      exact ih (fun v => ht _) (k + 1) hb

theorem exists_slack {b : Bounds Rat} {w : Rat} (h : Completes b w) :
    ∃ y, 0 ≤ y ∧ (slack? b).getD 0 * y = w := by
  unfold Completes at h
  unfold slack?
  cases hb : b.isUnboundedBelow
  · cases ha : b.isUnboundedAbove
    · simp only [hb, ha, Bool.false_eq_true, if_false] at h
      exact ⟨0, le_rfl, by simp [h]⟩
    · simp only [hb, ha, Bool.false_eq_true, if_false, if_true] at h
      exact ⟨-w, by linarith, by simp⟩
  · simp only [hb, if_true] at h
    exact ⟨w, h, by simp⟩

/-- Every completion of the rows is that of nonnegative slacks. -/
theorem exists_slacks {rows : List (Bounds Rat)} {w : Nat → Rat} (k : Nat)
    (hw : ∀ (i : Nat) (b : Bounds Rat), rows[i]? = some b → Completes b (w (k + i))) :
    ∃ t : Nat → Rat, (∀ v, 0 ≤ t v) ∧ ∀ (i : Nat) (b : Bounds Rat), rows[i]? = some b →
      slackSum rows k t (k + i) = w (k + i) := by
  induction rows generalizing k with
  | nil => exact ⟨fun _ => 0, fun _ => le_rfl, fun i b hb => by simp at hb⟩
  | cons a rows ih =>
    obtain ⟨t, ht, hsum⟩ := ih (k + 1) fun i b hb => by
      rw [show k + 1 + i = k + (i + 1) by omega]
      exact hw (i + 1) b hb
    obtain ⟨y, hy, hyw⟩ := exists_slack (hw 0 a rfl)
    -- the slack of the first row comes before the others, if there is one
    let u (v : Nat) : Rat :=
      if v < (slack? a).toList.length then y else t (v - (slack? a).toList.length)
    have hfirst : (slack? a).getD 0 * u 0 = w (k + 0) := by
      cases hs : slack? a with
      | none => simpa [hs] using hyw
      | some x => simpa [u, hs] using hyw
    have hrest : (fun i => u ((slack? a).toList.length + i)) = t := by
      funext i
      simp [u]
    refine ⟨u, ?_, ?_⟩
    · intro v
      dsimp only [u]
      split
      · exact hy
      · exact ht _
    · intro i b hb
      rw [slackSum_cons, hrest]
      cases i with
      | zero => rw [Nat.add_zero, if_pos rfl, slackSum_eq_zero (by omega), add_zero, hfirst,
          Nat.add_zero]
      | succ i =>
        rw [if_neg (by omega), zero_mul, zero_add, show k + (i + 1) = k + 1 + i by omega]
        exact hsum i b hb

theorem addSlacks_leftSide (x : Nat → Rat) (r : Nat) : p.addSlacks.leftSide x r =
    p.leftSide x r + slackSum p.rows 0 (fun i => x (p.variableCount + i)) r := by
  rw [leftSide, addSlacks, List.map_append, weigh_append, List.length_map]
  rfl

theorem addSlacks_rows (r : Nat) : p.addSlacks.rows[r]? = (p.rows[r]?).map tighten :=
  List.getElem?_map

/-- What solves the equalities of rows and slacks keeps the rows. -/
theorem enforced_of_balanced (hk : ∀ b ∈ p.rows, isRange b = false) {x : Nat → Rat}
    (hx : ∀ v, 0 ≤ x v) (h : p.addSlacks.Balanced x) : p.Enforced x := by
  intro r b hb
  have hrow := h r (tighten b) (by rw [addSlacks_rows, hb, Option.map_some])
  have hslack := completes_slackSum (fun v => hx (p.variableCount + v)) 0 hb
  rw [addSlacks_leftSide] at hrow
  rw [Nat.zero_add] at hslack
  rw [enforces_iff_completes (hk b (List.mem_of_getElem? hb)), ← hrow, add_sub_cancel_left]
  exact hslack

/-- A point that keeps the rows solves their equalities, with suitable slacks. -/
theorem exists_balanced (hk : ∀ b ∈ p.rows, isRange b = false) {x : Nat → Rat}
    (hx : ∀ v, 0 ≤ x v) (h : p.Enforced x) :
    ∃ y : Nat → Rat, (∀ v, 0 ≤ y v) ∧ (∀ v < p.variableCount, y v = x v) ∧
      p.addSlacks.Balanced y := by
  let rest (r : Nat) : Rat := (tighten (p.rows.getD r ⟨0, 0⟩)).lower - p.leftSide x r
  obtain ⟨t, ht, hsum⟩ := exists_slacks (w := rest) 0 fun r b hb => by
      rw [Nat.zero_add]
      dsimp only [rest]
      rw [List.getD_eq_getElem?_getD, hb, Option.getD_some,
        ← enforces_iff_completes (hk b (List.mem_of_getElem? hb))]
      exact h r b hb
  refine ⟨fun v => if v < p.variableCount then x v else t (v - p.variableCount), ?_,
    fun v hv => if_pos hv, ?_⟩
  · intro v
    dsimp only
    split
    · exact hx v
    · exact ht _
  · intro r b hb
    rw [addSlacks_rows] at hb
    obtain ⟨a, ha, rfl⟩ := Option.map_eq_some_iff.mp hb
    have hs := hsum r a ha
    rw [Nat.zero_add] at hs
    dsimp only [rest] at hs
    rw [List.getD_eq_getElem?_getD, ha, Option.getD_some] at hs
    have hleft : p.leftSide
        (fun v => if v < p.variableCount then x v else t (v - p.variableCount)) r =
          p.leftSide x r :=
      weigh_congr fun v hv => if_pos (by rwa [List.length_map] at hv)
    have hslack : (fun i => if p.variableCount + i < p.variableCount then x (p.variableCount + i)
        else t (p.variableCount + i - p.variableCount)) = t := by
      funext i
      simp
    rw [addSlacks_leftSide, hleft, hslack, hs]
    ring

/-! ## Signs -/

theorem makeNonnegative_leftSide (x : Nat → Rat) {r : Nat} {b : Bounds Rat}
    (hb : p.rows[r]? = some b) : p.makeNonnegative.leftSide x r =
      if isNegative b then -p.leftSide x r else p.leftSide x r := by
  have hcoefficient : ∀ c : Column Rat, Column.coefficient { c with
      entries := c.entries.mapValues fun r x => if (p.rows[r]?).any isNegative then -x else x } r =
        if isNegative b then -c.coefficient r else c.coefficient r := by
    intro c
    rw [Column.coefficient_mapValues _ _ _ (by simp), hb, Option.any_some]
  rw [leftSide, makeNonnegative, List.map_map]
  by_cases hn : isNegative b = true
  · rw [if_pos hn, leftSide, ← weigh_neg, List.map_map]
    congr 1
    apply List.map_congr_left
    intro c _
    rw [Function.comp_apply, hcoefficient, if_pos hn]
    rfl
  · rw [if_neg hn, leftSide]
    congr 1
    apply List.map_congr_left
    intro c _
    simp [Function.comp_apply, hcoefficient, hn]

theorem makeNonnegative_balanced (x : Nat → Rat) :
    p.makeNonnegative.Balanced x ↔ p.Balanced x := by
  have hrows : ∀ r : Nat, p.makeNonnegative.rows[r]? =
      (p.rows[r]?).map fun b => if isNegative b then ⟨-b.lower, -b.upper⟩ else b := fun r =>
    List.getElem?_map
  have hrow : ∀ (r : Nat) (b : Bounds Rat), p.rows[r]? = some b →
      (p.makeNonnegative.leftSide x r =
        (if isNegative b then (⟨-b.lower, -b.upper⟩ : Bounds Rat) else b).lower ↔
          p.leftSide x r = b.lower) := by
    intro r b hb
    rw [makeNonnegative_leftSide x hb]
    split
    · exact neg_inj
    · rfl
  constructor
  · exact fun h r b hb => (hrow r b hb).mp (h r _ (by rw [hrows, hb, Option.map_some]))
  · intro h r b hb
    rw [hrows] at hb
    obtain ⟨a, ha, rfl⟩ := Option.map_eq_some_iff.mp hb
    exact (hrow r a ha).mpr (h r a ha)

@[simp]
theorem orient_rows (p : Program Rat) : p.orient.rows = p.rows := by
  unfold orient
  split <;> rfl

@[simp]
theorem orient_variableCount (p : Program Rat) : p.orient.variableCount = p.variableCount := by
  unfold orient
  split
  · rfl
  · exact List.length_map _

/-- Only costs change their sign. -/
theorem mem_orient {c : Column Rat} (hc : c ∈ p.orient.columns) :
    ∃ d ∈ p.columns, c.bounds = d.bounds ∧ c.entries = d.entries := by
  unfold orient at hc
  split at hc
  · exact ⟨c, hc, rfl, rfl⟩
  · obtain ⟨d, hd, rfl⟩ := List.mem_map.mp hc
    exact ⟨d, hd, rfl, rfl⟩

theorem orient_balanced (x : Nat → Rat) : p.orient.Balanced x ↔ p.Balanced x := by
  have hleft : ∀ r, p.orient.leftSide x r = p.leftSide x r := by
    intro r
    unfold orient
    split
    · rfl
    · exact leftSide_congr (f := fun c => { c with cost := -c.cost }) (fun c _ => rfl) x
  simp [Balanced, hleft]

end Program
end LinearProgramming
