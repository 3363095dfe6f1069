import LinearProgramming.Backend
import LinearProgramming.Proofs.Canonical.Form
import LinearProgramming.Proofs.Simplex.Verdict

/-!
# Canonical programs are fixed points

Each pass leaves a program alone that has nothing for it to do, so a canonical program is its own
canonical form, unless the sentinel is the right-hand side of a row: as an upper bound that is none.

* `Program.isCanonical_iff`: the check, read as properties of columns and rows.
* `Program.substitution_canonical`: replacing nonnegative variables replaces nothing.
* `Program.splitRanges_eq_self`, `Program.addSlacks_eq_self`, `Program.makeNonnegative_eq_self`:
  rows that a pass does not change.
* `Program.canonicalForm_eq_self_iff`: which canonical programs are their own form.
* `Program.canonicalForm_fixed`: these are solved as they are, and a canonical form without the
  sentinel is not rewritten again.
-/

namespace LinearProgramming

/-- The recovery of a variable that was not replaced. -/
def Recovery.same : Recovery Rat := ⟨none, 1, 0⟩

/-- The form of a program that was not rewritten. -/
def CanonicalForm.unchanged (p : Program Rat) : CanonicalForm Rat :=
  ⟨p, List.replicate p.variableCount .same⟩

/-! ## Variables -/

@[simp]
theorem Bounds.nonnegative_below : (nonnegative : Bounds Rat).isUnboundedBelow = false := by
  decide +kernel

@[simp]
theorem Bounds.nonnegative_above : (nonnegative : Bounds Rat).isUnboundedAbove = true := by
  decide +kernel

namespace Substitution

@[simp]
theorem shiftRows_zero (rows : List (Bounds Rat)) (entries : Entries Rat) :
    shiftRows rows entries 0 = rows := by
  induction entries generalizing rows with
  | nil => rfl
  | cons e rest ih =>
    have hid : (fun b : Bounds Rat => b.shiftDown (e.2 * 0)) = id := by
      funext b
      simp
    rw [shiftRows, List.foldl_cons, hid, List.modify_id]
    exact ih rows

/-- A nonnegative variable is replaced by itself. -/
theorem replace_nonnegative (s : Substitution Rat) (n : Nat) {c : Column Rat}
    (hc : c.bounds = .nonnegative) : s.replace n c =
      { s with replaced := s.replaced ++ [c], recoveries := s.recoveries ++ [.same] } := by
  obtain ⟨b, cost, entries⟩ := c
  obtain rfl : b = .nonnegative := hc
  rw [replace_shift Bounds.nonnegative_below, shift]
  simp only [Bounds.nonnegative_above, Bool.not_true, Bool.false_eq_true, if_false]
  rw [show (Bounds.nonnegative : Bounds Rat).lower = 0 from rfl, shiftRows_zero]
  rfl

end Substitution

theorem map_eq_self {α : Type} {f : α → α} {xs : List α} (h : ∀ x ∈ xs, f x = x) :
    xs.map f = xs :=
  (List.map_congr_left h).trans (List.map_id' xs)

namespace Program

variable {p : Program Rat}

theorem isCanonical_iff : p.isCanonical = true ↔ p.sense = .minimize ∧
    (∀ c ∈ p.columns, c.bounds = .nonnegative) ∧ ∀ b ∈ p.rows, b.lower = b.upper ∧ 0 ≤ b.lower := by
  simp only [isCanonical, Bool.and_eq_true, List.all_eq_true, beq_iff_eq, Scalar.same,
    decide_eq_true_eq, below_eq, Bool.not_eq_true', decide_eq_false_iff_not, not_lt,
    Bounds.isUnboundedAbove_iff]
  constructor
  · rintro ⟨⟨⟨⟨hs, hl⟩, hu⟩, he⟩, hn⟩
    refine ⟨hs, fun c hc => ?_, fun b hb => ⟨he b hb, hn b hb⟩⟩
    exact congrArg₂ Bounds.mk (hl c hc) (hu c hc)
  · rintro ⟨hs, hc, hb⟩
    refine ⟨⟨⟨⟨hs, fun c h => ?_⟩, fun c h => ?_⟩, fun b h => (hb b h).1⟩, fun b h => (hb b h).2⟩
    · rw [hc c h]
      rfl
    · rw [hc c h]
      rfl

/-- Replacing nonnegative variables replaces nothing. -/
theorem substitution_canonical (hc : ∀ c ∈ p.columns, c.bounds = .nonnegative) :
    p.substitution = ⟨p.columns, [], p.rows, List.replicate p.variableCount .same⟩ := by
  have h := Substitution.substitution_induction (p := p)
    (I := fun i s => s = ⟨p.columns.take i, [], p.rows, List.replicate i .same⟩) rfl
    fun i c s hi hs => by
      have hmem := List.mem_of_getElem? hi
      rw [hs, Substitution.replace_nonnegative _ _ (hc c hmem), List.take_add_one, hi,
        List.replicate_succ']
      rfl
  rwa [variableCount, List.take_length] at h

/-! ## Rows -/

theorem splitRanges_eq_self (h : ∀ b ∈ p.rows, isRange b = false) : p.splitRanges = p := by
  have hupper : ∀ r, upperPart? p.rows r = none := by
    intro r
    cases hk : upperPart? p.rows r with
    | none => rfl
    | some k =>
      obtain ⟨b, hb, hr, -⟩ := upperPart?_eq_some.mp hk
      rw [h b (List.mem_of_getElem? hb)] at hr
      cases hr
  have hrows : (p.rows.map fun b => if isRange b then (⟨b.lower, Scalar.infinity⟩ : Bounds Rat)
      else b) = p.rows := map_eq_self fun b hb => by rw [h b hb]; rfl
  have hnone : p.rows.filter isRange = [] :=
    List.filter_eq_nil_iff.mpr fun b hb => by rw [h b hb]; exact Bool.false_ne_true
  obtain ⟨sense, columns, rows⟩ := p
  simp only [splitRanges, hupper, hrows, hnone, Option.map_none, List.filterMap_none,
    List.append_nil, List.map_nil, List.map_id']

theorem slackColumns_eq_nil {rows : List (Bounds Rat)} {k : Nat} :
    slackColumns rows k = [] ↔ ∀ b ∈ rows, slack? b = none := by
  induction rows generalizing k with
  | nil => simp [slackColumns]
  | cons b rows ih =>
    rw [slackColumns_cons, List.append_eq_nil_iff, ih, List.forall_mem_cons]
    cases slack? b <;> simp

theorem addSlacks_eq_self (h : ∀ b ∈ p.rows, slack? b = none) : p.addSlacks = p := by
  have htight : p.rows.map tighten = p.rows := by
    refine map_eq_self fun b hb => ?_
    have hb := h b hb
    unfold slack? at hb
    unfold tighten
    split at hb
    · cases hb
    · split at hb
      · cases hb
      · next hl hu => rw [if_neg hl, if_neg hu]
  have hnone := slackColumns_eq_nil (k := 0).mpr h
  rw [slackColumns] at hnone
  obtain ⟨sense, columns, rows⟩ := p
  simp only [addSlacks, htight, hnone, List.append_nil]

theorem makeNonnegative_eq_self (h : ∀ b ∈ p.rows, isNegative b = false) :
    p.makeNonnegative = p := by
  have hrows : (p.rows.map fun b => if isNegative b then (⟨-b.lower, -b.upper⟩ : Bounds Rat)
      else b) = p.rows := map_eq_self fun b hb => by rw [h b hb]; rfl
  have hsign : ∀ r : Nat, (p.rows[r]?).any isNegative = false := by
    intro r
    cases hb : p.rows[r]? with
    | none => rfl
    | some b => exact h b (List.mem_of_getElem? hb)
  obtain ⟨sense, columns, rows⟩ := p
  simp only [makeNonnegative, hrows, hsign, Bool.false_eq_true, if_false, Entries.mapValues,
    List.map_id']

theorem orient_eq_self (h : p.sense = .minimize) : p.orient = p := by
  rw [orient, h]

/-! ## Canonical programs -/

/-- A canonical row has a slack if its right-hand side is the sentinel, and only then. -/
theorem slack?_canonical {b : Bounds Rat} (he : b.lower = b.upper) (hn : 0 ≤ b.lower) :
    slack? b = none ↔ b.lower ≠ sentinel := by
  have hlower : b.isUnboundedBelow = false := by
    refine Bool.eq_false_iff.mpr fun hb => ?_
    have hl := Bounds.isUnboundedBelow_iff.mp hb
    rw [hl] at hn
    exact absurd hn (by decide +kernel)
  rw [slack?, hlower, ne_eq, he, ← Bounds.isUnboundedAbove_iff]
  cases b.isUnboundedAbove <;> simp

theorem isRange_of_equal {b : Bounds Rat} (he : b.lower = b.upper) : isRange b = false :=
  Bool.eq_false_iff.mpr fun h => (isRange_iff.mp h).2.2 he

/-- A canonical program is its own form exactly if the sentinel is not on the right-hand side. -/
theorem canonicalForm_eq_self_iff (hc : p.isCanonical = true) :
    p.canonicalForm = .unchanged p ↔ ∀ b ∈ p.rows, b.lower ≠ sentinel := by
  obtain ⟨hsense, hcolumns, hrows⟩ := isCanonical_iff.mp hc
  have hsub : p.substitute = p := by
    rw [substitute, substitution_canonical hcolumns, Substitution.program, List.append_nil]
  have hsplit : p.splitRanges = p := splitRanges_eq_self fun b hb => isRange_of_equal (hrows b hb).1
  have hslack : (∀ b ∈ p.rows, slack? b = none) ↔ ∀ b ∈ p.rows, b.lower ≠ sentinel :=
    forall₂_congr fun b hb => slack?_canonical (hrows b hb).1 (hrows b hb).2
  rw [← hslack]
  constructor
  · intro h
    -- every slack would be one more variable
    have hcount := canonicalForm_variableCount p
    rw [h, hsub, hsplit] at hcount
    exact slackColumns_eq_nil.mp (List.length_eq_zero_iff.mp (Nat.left_eq_add.mp hcount))
  · intro h
    have hpositive : p.makeNonnegative = p := makeNonnegative_eq_self fun b hb => by
      simpa [isNegative, ← (hrows b hb).1] using (hrows b hb).2
    rw [canonicalForm, hsub, hsplit, addSlacks_eq_self h, hpositive, orient_eq_self hsense,
      substitution_canonical hcolumns]
    rfl

/-- As an upper bound the sentinel is none, so that this canonical row gets a slack. -/
example : (⟨.minimize, [], [⟨sentinel, sentinel⟩]⟩ : Program Rat).canonicalForm.program =
    ⟨.minimize, [⟨.nonnegative, 0, [(0, -1)]⟩], [⟨sentinel, sentinel⟩]⟩ := by decide +kernel

/-! ## Solves -/

/-- Values of variables that were not replaced are recovered as they are. -/
theorem recoverAll_same (xs : List Rat) :
    recoverAll (List.replicate xs.length .same) xs = .ok xs := by
  have hvalue : ∀ t ∈ (List.replicate xs.length Recovery.same).zipIdx,
      t.1.value t.2 xs = .ok (coord xs t.2) := by
    rintro ⟨t, i⟩ hm
    obtain ⟨-, hi, ht⟩ := List.mem_zipIdx hm
    rw [Nat.zero_add, List.length_replicate] at hi
    obtain rfl : t = .same := ht.trans (List.getElem_replicate ..)
    rw [value_eq_ok hi fun k (hk : none = some k) => by cases hk]
    simp [Recovery.read, Recovery.same]
  rw [recoverAll, mapM_eq_ok hvalue]
  refine congrArg Except.ok (eq_of_coord (by simp) fun i hi => ?_)
  rw [coord_map _ _ (by simpa using hi)]
  simp

/-- Through the internal backend a program that is not rewritten ends as it does on the engine. -/
theorem solveInternal_unchanged (hs : p.Stored) (hc : p.isCanonical = true)
    (hform : p.canonicalForm = .unchanged p) (limit : Nat) : Backend.solveInternal limit p =
      (Simplex.solveCanonical limit p).map fun o =>
        (⟨o.status, if o.status = .optimal then some o.values else none⟩,
          .canonicalForm p.variableCount p.rowCount p.variableCount p.rowCount :: o.events) := by
  unfold Backend.solveInternal
  simp only [hform, CanonicalForm.unchanged, CanonicalForm.event]
  -- an optimum solves the program, so that it has a value for every variable to be recovered
  rcases Simplex.solveCanonical_ok hs hc limit with hlimit | ⟨o, ho, hv⟩
  · rw [hlimit]
    rfl
  · rw [bind_eq ho, ho]
    dsimp only [Except.map]
    rcases hv with ⟨hopt, hcheapest⟩ | ⟨hstatus, -⟩ | ⟨hstatus, -⟩
    · have hrecover := recoverAll_same o.values
      rw [hcheapest.1.length] at hrecover
      rw [if_pos hopt, if_pos hopt, hrecover, hopt]
      rfl
    · rw [hstatus]
      rfl
    · rw [hstatus]
      rfl

/-- A canonical program is its own form exactly if the sentinel is not on the right-hand side of a
row, and is solved as it is then. A canonical form without the sentinel is its own form. -/
theorem canonicalForm_fixed (hs : p.Stored) :
    (p.isCanonical = true →
      (p.canonicalForm = .unchanged p ↔ ∀ b ∈ p.rows, b.lower ≠ sentinel) ∧
      ((∀ b ∈ p.rows, b.lower ≠ sentinel) → ∀ e : Engines,
        Simplex.runCanonical e.stepLimit p.canonicalForm.program =
          Simplex.runCanonical e.stepLimit p ∧
        ∀ method, Backend.internal.accepts method = true → Backend.internal.solve e p method =
          (Simplex.solveCanonical e.stepLimit p).map fun o =>
            (⟨o.status, if o.status = .optimal then some o.values else none⟩,
              .canonicalForm p.variableCount p.rowCount p.variableCount p.rowCount
                :: o.events))) ∧
    ((∀ b ∈ p.canonicalForm.program.rows, b.lower ≠ sentinel) →
      p.canonicalForm.program.canonicalForm = .unchanged p.canonicalForm.program) := by
  refine ⟨fun hc => ⟨canonicalForm_eq_self_iff hc, fun hn e => ?_⟩, fun hn => ?_⟩
  · have hform := (canonicalForm_eq_self_iff hc).mpr hn
    refine ⟨by rw [hform, CanonicalForm.unchanged], fun method hm => ?_⟩
    rw [Backend.solve, if_pos hm]
    exact solveInternal_unchanged hs hc hform e.stepLimit
  · exact (canonicalForm_eq_self_iff (canonicalForm_isCanonical hs)).mpr hn

/-- A canonical program that is solved as it is, and one that is rewritten once. -/
theorem stutter_unchanged : Simplex.stutter.Stored ∧ Simplex.stutter.isCanonical = true ∧
    Simplex.stutter.canonicalForm = .unchanged Simplex.stutter ∧
    (∀ conic : Format → ConicProgram → ConicAnswer,
      Backend.internal.solve ⟨5, conic⟩ Simplex.stutter .auto =
        .ok (⟨.optimal, some [2, 0]⟩, [.canonicalForm 2 2 2 2, .phaseOne 2 2, .pivot 0 0 2 0,
          .redundant 1, .phaseTwo 1, .optimal 1])) ∧
    mixture.Stored ∧ mixture.isCanonical = false ∧
    mixture.canonicalForm.program.canonicalForm = .unchanged mixture.canonicalForm.program := by
  have hs : Simplex.stutter.Stored := by decide
  have hc : Simplex.stutter.isCanonical = true := by decide
  have hrows : ∀ b ∈ Simplex.stutter.rows, b.lower ≠ sentinel := by decide +kernel
  have hmixture : mixture.Stored := by decide
  obtain ⟨hform, hsolve⟩ := (canonicalForm_fixed hs).1 hc
  refine ⟨hs, hc, hform.mpr hrows, fun conic => ?_, hmixture, by decide +kernel,
    (canonicalForm_fixed hmixture).2 (by decide +kernel)⟩
  have ho : Simplex.solveCanonical 5 Simplex.stutter = .ok ⟨.optimal, [2, 0],
      [.phaseOne 2 2, .pivot 0 0 2 0, .redundant 1, .phaseTwo 1, .optimal 1]⟩ := by
    decide +kernel
  rw [(hsolve hrows ⟨5, conic⟩).2 .auto rfl, ho]
  rfl

end Program

end LinearProgramming
