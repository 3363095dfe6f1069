import LinearProgramming.Proofs.Canonical.Slacks
import LinearProgramming.Proofs.Canonical.Variables

/-!
# The canonical form is canonical

Whatever the program, its form is what the engine expects:

* `canonicalForm_stored`: every pass keeps cells in the rows and in their order;
* `canonicalForm_isCanonical`: variables are nonnegative, and rows are equalities with right-hand
  sides that are not negative.
-/

namespace LinearProgramming

namespace Program

variable {p : Program Rat}

/-! ## Stored cells -/

theorem substitute_stored (hp : p.Stored) : p.substitute.Stored := fun c hc =>
  have h := (substitution_shaped hp).placed c hc
  ⟨h.ordered, h.inside⟩

theorem splitRanges_stored (hp : p.Stored) : p.splitRanges.Stored := by
  intro c hc
  obtain ⟨d, hd, rfl⟩ := List.mem_map.mp hc
  obtain ⟨ho, he⟩ := hp d hd
  have hlength : p.splitRanges.rows.length = p.rows.length + (p.rows.filter isRange).length := by
    simp [splitRanges]
  refine ⟨List.pairwise_append.mpr ⟨ho, ?_, ?_⟩, ?_⟩
  · apply ho.filterMap _
    intro a b hab e hae f hbf
    obtain ⟨k, hk, rfl⟩ := Option.map_eq_some_iff.mp hae
    obtain ⟨l, hl, rfl⟩ := Option.map_eq_some_iff.mp hbf
    obtain ⟨x, hx, hxr, rfl⟩ := upperPart?_eq_some.mp hk
    obtain ⟨y, hy, hyr, rfl⟩ := upperPart?_eq_some.mp hl
    exact Nat.add_lt_add_left (rank_lt hx hxr hab) _
  · intro a ha e hm
    obtain ⟨r, hr⟩ := mem_upperParts hm
    exact (he a ha).trans_le (upperPart?_bounds hr).1
  · intro e hm
    rw [hlength]
    rcases List.mem_append.mp hm with hm | hm
    · have := he e hm
      omega
    · obtain ⟨r, hr⟩ := mem_upperParts hm
      exact (upperPart?_bounds hr).2

theorem addSlacks_stored (hp : p.Stored) : p.addSlacks.Stored := by
  have hl : p.addSlacks.rows.length = p.rows.length := List.length_map _
  intro c hc
  rw [hl]
  rcases List.mem_append.mp hc with hc | hc
  · exact hp c hc
  · obtain ⟨-, -, r, x, he, -, hr⟩ := mem_slackColumns hc
    rw [he]
    refine ⟨List.pairwise_singleton .., ?_⟩
    intro e hm
    rw [List.mem_singleton.mp hm]
    omega

theorem makeNonnegative_stored (hp : p.Stored) : p.makeNonnegative.Stored := by
  have hl : p.makeNonnegative.rows.length = p.rows.length := List.length_map _
  intro c hc
  rw [hl]
  obtain ⟨d, hd, rfl⟩ := List.mem_map.mp hc
  obtain ⟨ho, he⟩ := hp d hd
  refine ⟨Entries.ordered_mapValues
    (fun r x => if (p.rows[r]?).any isNegative then -x else x) ho, ?_⟩
  intro e hm
  obtain ⟨q, hq, rfl⟩ := List.mem_map.mp hm
  exact he q hq

theorem orient_stored (hp : p.Stored) : p.orient.Stored := by
  intro c hc
  obtain ⟨d, hd, -, he⟩ := mem_orient hc
  rw [orient_rows, he]
  exact hp d hd

theorem canonicalForm_stored (hp : p.Stored) : p.canonicalForm.program.Stored :=
  orient_stored (makeNonnegative_stored (addSlacks_stored (splitRanges_stored
    (substitute_stored hp))))

/-! ## Bounds and rows -/

theorem canonicalForm_bounds (hp : p.Stored) :
    ∀ c ∈ p.canonicalForm.program.columns, c.bounds = .nonnegative := by
  intro c hc
  obtain ⟨a, ha, hbounds, -⟩ := mem_orient hc
  rw [hbounds]
  obtain ⟨d, hd, rfl⟩ := List.mem_map.mp ha
  rcases List.mem_append.mp hd with hd | hd
  · obtain ⟨e, he, rfl⟩ := List.mem_map.mp hd
    exact ((substitution_shaped hp).placed e he).bounds
  · exact (mem_slackColumns hd).1

/-- A row that is not a range becomes an equality. -/
theorem tighten_equal {b : Bounds Rat} (h : isRange b = false) :
    (tighten b).lower = (tighten b).upper := by
  unfold tighten
  cases hbelow : b.isUnboundedBelow
  · cases habove : b.isUnboundedAbove
    · exact lower_eq_upper h hbelow habove
    · rfl
  · rfl

theorem canonicalForm_rows {b : Bounds Rat} (hb : b ∈ p.canonicalForm.program.rows) :
    b.lower = b.upper ∧ 0 ≤ b.lower := by
  rw [canonicalForm, orient_rows] at hb
  obtain ⟨t, ht, rfl⟩ := List.mem_map.mp hb
  obtain ⟨a, ha, rfl⟩ := List.mem_map.mp ht
  have hkind := splitRanges_kind ha
  have hequal := tighten_equal hkind
  have hneg : isNegative (tighten a) = decide ((tighten a).upper < 0) := by simp [isNegative]
  by_cases h : (tighten a).upper < 0
  · simp only [hneg, h, decide_true, if_true]
    exact ⟨by rw [hequal], by linarith⟩
  · simp only [hneg, h, decide_false, Bool.false_eq_true, if_false]
    exact ⟨hequal, hequal ▸ not_lt.mp h⟩

@[simp]
theorem canonicalForm_sense (p : Program Rat) : p.canonicalForm.program.sense = .minimize := by
  rw [canonicalForm, orient]
  split
  · next h => exact h
  · rfl

/-- Whatever the program, its canonical form is canonical. -/
theorem canonicalForm_isCanonical (hp : p.Stored) : p.canonicalForm.program.isCanonical = true := by
  simp only [isCanonical, Bool.and_eq_true, List.all_eq_true]
  refine ⟨⟨⟨⟨?_, ?_⟩, ?_⟩, ?_⟩, ?_⟩
  · simp
  · intro c hc
    rw [canonicalForm_bounds hp c hc]
    rfl
  · intro c hc
    rw [canonicalForm_bounds hp c hc]
    exact Bounds.isUnboundedAbove_iff.mpr rfl
  · intro b hb
    exact decide_eq_true (canonicalForm_rows hb).1
  · intro b hb
    simpa using (canonicalForm_rows hb).2

end Program
end LinearProgramming
