import LinearProgramming.Proofs.Canonical.Form

/-!
# Where things are in the canonical form

* `Substitution.Arranged`: a replaced variable stays at its position with its column up to a sign,
  and the partners of free variables are numbered one after the other;
* `Program.canonicalForm_columns`: the columns of the form are those of the substitution and the
  slacks, with the signs of their rows;
* `Program.canonicalForm_layout`: the form of a program as a list of variables and cells, whatever
  the program.
-/

namespace LinearProgramming

/-! ## Replaced variables -/

namespace Substitution

/-- The column `d`, recovered by `t`, is that of the variable `c` in the first `m` rows, up to the
sign of the variable. -/
structure Stands (m : Nat) (c d : Column Rat) (t : Recovery Rat) : Prop where
  scale : t.scale = 1 ∨ t.scale = -1
  cost : d.cost = t.scale * c.cost
  coefficient : ∀ r < m, d.coefficient r = t.scale * c.coefficient r

/-- The column stores no zero. -/
def NoZero (c : Column Rat) : Prop := ∀ e ∈ c.entries, e.2 ≠ 0

/-- Where the first `i` variables of a program and their partners are. -/
structure Arranged (p : Program Rat) (i : Nat) (s : Substitution Rat) : Prop where
  shaped : s.Shaped p i
  pairs : s.recoveries.filterMap (·.paired) = List.range' p.variableCount s.partners.length
  sparse : p.Sparse → ∀ c ∈ s.replaced ++ s.partners, NoZero c
  original : ∀ (j : Nat) (c : Column Rat), j < i → p.columns[j]? = some c → ∃ d t,
    s.replaced[j]? = some d ∧ s.recoveries[j]? = some t ∧ Stands p.rowCount c d t

variable {p : Program Rat} {s u : Substitution Rat} {i : Nat} {c : Column Rat}

theorem sparse_iff : p.Sparse ↔ ∀ c ∈ p.columns, NoZero c := by
  simp only [Program.Sparse, NoZero, Scalar.near, decide_eq_false_iff_not, ne_eq]

theorem arranged_start (p : Program Rat) : Arranged p 0 ⟨[], [], p.rows, []⟩ where
  shaped := shaped_start p
  pairs := rfl
  sparse _ c hc := by cases hc
  original j c hj := absurd hj (Nat.not_lt_zero j)

/-- One more variable, with the partners that it brings. -/
theorem Arranged.append (h : s.Arranged p i) (hu : u.Shaped p (i + 1)) {d : Column Rat}
    {t : Recovery Rat} {l : List (Column Rat)} (hd : u.replaced = s.replaced ++ [d])
    (ht : u.recoveries = s.recoveries ++ [t]) (hp : u.partners = s.partners ++ l)
    (hpair : t.paired.toList = List.range' (p.variableCount + s.partners.length) l.length)
    (hsparse : p.Sparse → ∀ a ∈ d :: l, NoZero a) (hc : p.columns[i]? = some c)
    (hstands : Stands p.rowCount c d t) : u.Arranged p (i + 1) where
  shaped := hu
  pairs := by
    rw [ht, hp, List.filterMap_append, h.pairs, List.length_append, ← List.range'_append_1, ← hpair]
    cases hk : t.paired <;> simp [hk]
  sparse hs a ha := by
    rw [hd, hp] at ha
    simp only [List.mem_append, List.mem_singleton] at ha
    rcases ha with (ha | rfl) | ha | ha
    · exact h.sparse hs a (List.mem_append_left _ ha)
    · exact hsparse hs _ List.mem_cons_self
    · exact h.sparse hs a (List.mem_append_right _ ha)
    · exact hsparse hs a (List.mem_cons_of_mem _ ha)
  original j a hj ha := by
    rw [hd, ht]
    rcases Nat.lt_succ_iff_lt_or_eq.mp hj with hj | rfl
    · obtain ⟨e, q, he, hq, hstands⟩ := h.original j a hj ha
      exact ⟨e, q, by rw [List.getElem?_append_left (h.shaped.replaced ▸ hj), he],
        by rw [List.getElem?_append_left (h.shaped.recoveries ▸ hj), hq], hstands⟩
    · obtain rfl := Option.some.inj (hc.symm.trans ha)
      refine ⟨d, t, ?_, ?_, hstands⟩
      · rw [← h.shaped.replaced, List.getElem?_concat_length]
      · rw [← h.shaped.recoveries, List.getElem?_concat_length]

theorem noZero_neg (h : NoZero c) (b : Bounds Rat) (cost : Rat) :
    NoZero ⟨b, cost, c.entries.mapValues fun _ x => -x⟩ := by
  intro e he
  obtain ⟨q, hq, rfl⟩ := List.mem_map.mp he
  exact neg_ne_zero.mpr (h q hq)

theorem noZero_shifted (h : NoZero c) : NoZero (s.shifted c) := by
  intro e he
  unfold shifted at he
  dsimp only at he
  split at he
  · exact h e he
  · rcases List.mem_append.mp he with he | he
    · exact h e he
    · rw [List.mem_singleton.mp he]
      exact one_ne_zero

theorem Arranged.replace (h : s.Arranged p i) (hc : p.columns[i]? = some c)
    (ho : c.entries.Ordered) (he : ∀ e ∈ c.entries, e.1 < p.rowCount) :
    (s.replace p.variableCount c).Arranged p (i + 1) := by
  have hu := h.shaped.replace ho he
  have hz : p.Sparse → NoZero c := fun hs => sparse_iff.mp hs c (List.mem_of_getElem? hc)
  have hneg := fun hs => noZero_neg (hz hs) .nonnegative (-c.cost)
  cases hb : c.bounds.isUnboundedBelow
  · rw [replace_shift hb] at hu ⊢
    refine h.append (t := ⟨none, 1, c.bounds.lower⟩) (l := []) hu shift_replaced rfl
      (List.append_nil _).symm rfl (fun hs => by simpa using noZero_shifted (hz hs)) hc
      ⟨.inl rfl, (one_mul _).symm, fun r hr => ?_⟩
    have hlt : r < s.rows.length := hr.trans_le h.shaped.rows
    rw [shifted_coefficient fun e hm => (he e hm).trans_le h.shaped.rows,
      if_neg fun h => hlt.ne h.2, one_mul]
  · cases ha : c.bounds.isUnboundedAbove
    · rw [replace_reflect hb ha] at hu ⊢
      refine h.append (t := ⟨none, -1, c.bounds.upper⟩) (l := []) hu rfl rfl
        (List.append_nil _).symm rfl (fun hs => by simpa using hneg hs) hc
        ⟨.inr rfl, (neg_one_mul _).symm, fun r _ => ?_⟩
      exact (Column.coefficient_neg c _ _ r).trans (neg_one_mul _).symm
    · rw [replace_split hb ha] at hu ⊢
      exact h.append (t := ⟨some (p.variableCount + s.partners.length), 1, 0⟩) hu rfl rfl rfl rfl
        (fun hs => by simpa using ⟨hz hs, hneg hs⟩) hc
        ⟨.inl rfl, (one_mul _).symm, fun r _ => (one_mul _).symm⟩

end Substitution

/-! ## The form -/

/-- The column has a single entry, a one up to its sign. -/
def Column.SingleUnit (c : Column Rat) : Prop := ∃ r x, c.entries = [(r, x)] ∧ (x = 1 ∨ x = -1)

namespace CanonicalForm

/-- The positions of the variables that others are paired with. -/
def pairs (f : CanonicalForm Rat) : List Nat := f.recoveries.filterMap (·.paired)

/-- The columns after those of `n` variables and their partners. -/
def slacks (f : CanonicalForm Rat) (n : Nat) : List (Column Rat) :=
  f.program.columns.drop (n + f.pairs.length)

/-- How the parts of a canonical form are laid out that belongs to a program. The variables of the
program come first, then the partners of free ones, then the slacks. -/
structure LaidOut (p : Program Rat) (f : CanonicalForm Rat) : Prop where
  canonical : f.program.isCanonical = true
  recoveries : f.recoveries.length = p.variableCount
  pairs_nodup : f.pairs.Nodup
  pairs_inside : ∀ k ∈ f.pairs, p.variableCount ≤ k ∧ k < f.program.variableCount
  stored : f.program.Stored
  sparse : f.program.Sparse
  slack_unit : ∀ c ∈ f.slacks p.variableCount, c.SingleUnit
  slack_rows : (f.slacks p.variableCount).Pairwise fun c d =>
    ∀ e ∈ c.entries, ∀ g ∈ d.entries, e.1 ≠ g.1
  original : ∃ sign : Nat → Rat, (∀ r, sign r = 1 ∨ sign r = -1) ∧
    ∀ (j : Nat) (c : Column Rat), p.columns[j]? = some c → ∃ d t,
      f.program.columns[j]? = some d ∧ f.recoveries[j]? = some t ∧
        (t.scale = 1 ∨ t.scale = -1) ∧ d.cost = p.sense.sign * (t.scale * c.cost) ∧
          ∀ r < p.rowCount, d.coefficient r = sign r * (t.scale * c.coefficient r)

end CanonicalForm

namespace Program

open Substitution

variable {p q : Program Rat}

theorem substitution_arranged (hp : p.Stored) : p.substitution.Arranged p p.variableCount := by
  apply substitution_induction (arranged_start p)
  intro i c s hc h
  obtain ⟨ho, he⟩ := hp c (List.mem_of_getElem? hc)
  exact h.replace hc ho he

/-! ## Columns of the form -/

/-- The sign that a row gets to make its right-hand side nonnegative. -/
def rowSign (q : Program Rat) (r : Nat) : Rat := if (q.rows[r]?).any isNegative then -1 else 1

theorem rowSign_cases (q : Program Rat) (r : Nat) : q.rowSign r = 1 ∨ q.rowSign r = -1 := by
  unfold rowSign
  split
  · exact .inr rfl
  · exact .inl rfl

/-- A column with the signs of its rows and the sign of the sense. -/
def signed (q : Program Rat) (c : Column Rat) : Column Rat where
  bounds := c.bounds
  cost := q.sense.sign * c.cost
  entries := c.entries.mapValues fun r x => q.rowSign r * x

theorem signed_coefficient (q : Program Rat) (c : Column Rat) (r : Nat) :
    (q.signed c).coefficient r = q.rowSign r * c.coefficient r :=
  Column.coefficient_mapValues _ _ c.entries (mul_zero _)

theorem noZero_signed {c : Column Rat} (h : NoZero c) : NoZero (q.signed c) := by
  intro e he
  obtain ⟨a, ha, rfl⟩ := List.mem_map.mp he
  refine mul_ne_zero ?_ (h a ha)
  rcases q.rowSign_cases a.1 with hr | hr
  · rw [hr]
    exact one_ne_zero
  · rw [hr]
    exact neg_ne_zero.mpr one_ne_zero

theorem makeNonnegative_orient_columns (q : Program Rat) :
    q.makeNonnegative.orient.columns = q.columns.map q.signed := by
  have hsign : ∀ r x, (if (q.rows[r]?).any isNegative then -x else x) = q.rowSign r * x := by
    intro r x
    unfold rowSign
    split
    · exact (neg_one_mul x).symm
    · exact (one_mul x).symm
  unfold orient signed
  cases hs : q.sense with
  | minimize =>
    simp only [makeNonnegative, hs, hsign, Sense.sign, one_mul]
  | maximize =>
    simp only [makeNonnegative, hs, hsign, Sense.sign, neg_one_mul, List.map_map]
    rfl

/-- The variables and their partners, and then the slacks. -/
theorem canonicalForm_columns (p : Program Rat) : p.canonicalForm.program.columns =
    (p.substitute.columns.map (withUpperParts p.substitute.rows) ++
      slackColumns p.substitute.splitRanges.rows 0).map
        p.substitute.splitRanges.addSlacks.signed :=
  makeNonnegative_orient_columns _

theorem canonicalForm_pairs (hp : p.Stored) : p.canonicalForm.pairs =
    List.range' p.variableCount p.substitution.partners.length :=
  (substitution_arranged hp).pairs

theorem substitute_columns_length (hp : p.Stored) : p.substitute.columns.length =
    p.variableCount + p.canonicalForm.pairs.length := by
  rw [canonicalForm_pairs hp, List.length_range']
  exact substitute_variableCount hp

theorem noZero_withUpperParts {rows : List (Bounds Rat)} {c : Column Rat} (h : NoZero c) :
    NoZero (withUpperParts rows c) := by
  intro e he
  rcases List.mem_append.mp he with he | he
  · exact h e he
  · obtain ⟨a, ha, hm⟩ := List.mem_filterMap.mp he
    obtain ⟨k, -, rfl⟩ := Option.map_eq_some_iff.mp hm
    exact h a ha

/-! ## Slacks -/

theorem mem_slackColumns_unit {rows : List (Bounds Rat)} {k : Nat} {c : Column Rat}
    (h : c ∈ slackColumns rows k) : c.SingleUnit := by
  obtain ⟨⟨b, r⟩, -, hc⟩ := List.mem_filterMap.mp h
  obtain ⟨x, hx, rfl⟩ := Option.map_eq_some_iff.mp hc
  refine ⟨r, x, rfl, ?_⟩
  unfold slack? at hx
  split at hx
  · exact .inl (Option.some.inj hx).symm
  · split at hx
    · exact .inr (Option.some.inj hx).symm
    · cases hx

/-- Slacks are in the order of their rows. -/
theorem slackColumns_pairwise (rows : List (Bounds Rat)) (k : Nat) :
    (slackColumns rows k).Pairwise fun c d => ∀ e ∈ c.entries, ∀ f ∈ d.entries, e.1 < f.1 := by
  induction rows generalizing k with
  | nil => exact .nil
  | cons b rows ih =>
    rw [slackColumns_cons, List.pairwise_append]
    refine ⟨?_, ih (k + 1), ?_⟩
    · cases slack? b with
      | none => exact .nil
      | some x => exact List.pairwise_singleton ..
    · intro c hc d hd e he f hf
      obtain ⟨x, -, rfl⟩ := Option.map_eq_some_iff.mp (Option.mem_toList.mp hc)
      obtain ⟨-, -, r, y, hr, hk, -⟩ := mem_slackColumns hd
      rw [hr] at hf
      rw [List.mem_singleton.mp he, List.mem_singleton.mp hf]
      exact hk

theorem singleUnit_signed {c : Column Rat} (h : c.SingleUnit) : (q.signed c).SingleUnit := by
  obtain ⟨r, x, he, hx⟩ := h
  refine ⟨r, q.rowSign r * x, ?_, ?_⟩
  · simp only [signed, he, Entries.mapValues, List.map_cons, List.map_nil]
  · rcases q.rowSign_cases r with hr | hr
    · rwa [hr, one_mul]
    · rw [hr, neg_one_mul, neg_eq_iff_eq_neg, neg_inj]
      exact hx.symm

theorem canonicalForm_slacks (hp : p.Stored) :
    p.canonicalForm.slacks p.variableCount =
      (slackColumns p.substitute.splitRanges.rows 0).map
        p.substitute.splitRanges.addSlacks.signed := by
  rw [CanonicalForm.slacks, canonicalForm_columns, List.map_append]
  exact List.drop_left' (by
    rw [List.length_map, List.length_map, substitute_columns_length hp])

/-! ## The form as a whole -/

theorem canonicalForm_sparse (hp : p.Stored) (hs : p.Sparse) : p.canonicalForm.program.Sparse := by
  rw [sparse_iff, canonicalForm_columns]
  intro c hc
  obtain ⟨d, hd, rfl⟩ := List.mem_map.mp hc
  apply noZero_signed
  rcases List.mem_append.mp hd with hd | hd
  · obtain ⟨e, he, rfl⟩ := List.mem_map.mp hd
    exact noZero_withUpperParts ((substitution_arranged hp).sparse hs e he)
  · obtain ⟨r, x, he, hx⟩ := mem_slackColumns_unit hd
    intro e hm
    rw [he, List.mem_singleton] at hm
    rw [hm]
    rcases hx with rfl | rfl
    · exact one_ne_zero
    · exact neg_ne_zero.mpr one_ne_zero

/-- The column of a variable of the program, at its own position. -/
theorem canonicalForm_original (hp : p.Stored) {j : Nat} {c : Column Rat}
    (hc : p.columns[j]? = some c) : ∃ d t, p.canonicalForm.program.columns[j]? = some d ∧
      p.canonicalForm.recoveries[j]? = some t ∧ (t.scale = 1 ∨ t.scale = -1) ∧
        d.cost = p.sense.sign * (t.scale * c.cost) ∧ ∀ r < p.rowCount, d.coefficient r =
          p.substitute.splitRanges.addSlacks.rowSign r * (t.scale * c.coefficient r) := by
  have h := substitution_arranged hp
  have hj := (List.getElem?_eq_some_iff.mp hc).1
  obtain ⟨d, t, hd, ht, hstands⟩ := h.original j c hj hc
  have hcolumn : p.substitute.columns[j]? = some d := by
    rw [substitute, Substitution.program, List.getElem?_append_left (h.shaped.replaced ▸ hj), hd]
  have hlt : j < (p.substitute.columns.map (withUpperParts p.substitute.rows)).length := by
    rw [List.length_map, substitute_columns_length hp]
    exact Nat.lt_add_right _ hj
  refine ⟨p.substitute.splitRanges.addSlacks.signed (withUpperParts p.substitute.rows d), t, ?_, ht,
    hstands.scale, ?_, ?_⟩
  · rw [canonicalForm_columns, List.getElem?_map, List.getElem?_append_left hlt, List.getElem?_map,
      hcolumn]
    rfl
  · rw [← hstands.cost]
    rfl
  · intro r hr
    have hrows : r < p.substitute.rows.length := hr.trans_le h.shaped.rows
    rw [signed_coefficient, withUpperParts_coefficient _ _ hrows, hstands.coefficient r hr]

/-- Whatever the bounds and the numbers of a program are, its form is laid out like this. -/
theorem canonicalForm_layout (hp : p.Stored) (hs : p.Sparse) : p.canonicalForm.LaidOut p where
  canonical := canonicalForm_isCanonical hp
  recoveries := (substitution_shaped hp).recoveries
  pairs_nodup := canonicalForm_pairs hp ▸ List.nodup_range' 1
  pairs_inside k hk := by
    rw [canonicalForm_variableCount, substitute_variableCount hp]
    rw [canonicalForm_pairs hp, List.mem_range'_1] at hk
    omega
  stored := canonicalForm_stored hp
  sparse := canonicalForm_sparse hp hs
  slack_unit c hc := by
    rw [canonicalForm_slacks hp] at hc
    obtain ⟨d, hd, rfl⟩ := List.mem_map.mp hc
    exact singleUnit_signed (mem_slackColumns_unit hd)
  slack_rows := by
    rw [canonicalForm_slacks hp, List.pairwise_map]
    refine (slackColumns_pairwise _ 0).imp fun hcd e he g hg => ?_
    obtain ⟨a, ha, rfl⟩ := List.mem_map.mp he
    obtain ⟨b, hb, rfl⟩ := List.mem_map.mp hg
    exact (hcd a ha b hb).ne
  original := ⟨_, rowSign_cases _, fun _ _ hc => canonicalForm_original hp hc⟩

/-- The free variable of the mixture gets its partner at position `3`, and slacks follow for the
four rows: two of the range, one below `2`, and one for the variable between `1` and `4`. -/
theorem mixture_layout : mixture.Stored ∧ mixture.Sparse ∧
    mixture.canonicalForm.LaidOut mixture ∧ mixture.canonicalForm.pairs = [3] ∧
      (mixture.canonicalForm.slacks 3).length = 4 := by
  have hp : mixture.Stored := by decide
  have hs : mixture.Sparse := by decide
  exact ⟨hp, hs, canonicalForm_layout hp hs, by decide +kernel, by decide +kernel⟩

end Program

end LinearProgramming
