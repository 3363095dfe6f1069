import LinearProgramming.Proofs.Results
import LinearProgramming.Proofs.Rounding
import LinearProgramming.Proofs.Simplex.Slacks

/-!
# Programs without variables

All left sides are zero, so that a row holds if its bounds have the right signs. The conic backend
compares the rounded bounds, and the internal one runs the engine on slacks.

* `Program.exists_solves_iff`: the canonical form has a solution if all rows hold at zero;
* `Backend.agree_without_variables`: both backends say so.
-/

namespace LinearProgramming

/-! ## Rows at zero -/

theorem Bounds.enforces_zero_iff (b : Bounds Rat) : b.Enforces 0 ↔ b.lower ≤ 0 ∧ 0 ≤ b.upper := by
  have hsentinel : (0 : Rat) ≤ sentinel := by decide +kernel
  unfold Enforces
  split
  · next hb =>
    rw [isUnboundedBelow_iff.mp hb]
    exact (and_iff_right (neg_nonpos.mpr hsentinel)).symm
  · split
    · next ha =>
      rw [isUnboundedAbove_iff.mp ha]
      exact (and_iff_left hsentinel).symm
    · rfl

namespace Program

variable {p : Program Rat}

/-- Every row holds where its left side is zero. -/
def HoldsAtZero (p : Program Rat) : Prop := ∀ b ∈ p.rows, b.lower ≤ 0 ∧ 0 ≤ b.upper

instance (p : Program Rat) : Decidable p.HoldsAtZero :=
  inferInstanceAs (Decidable (∀ b ∈ p.rows, b.lower ≤ 0 ∧ 0 ≤ b.upper))

/-- No bound of a row is rounded to zero, but zero itself. -/
def RowsSurvive (p : Program Rat) : Prop := ∀ b ∈ p.rows, Survives b.lower ∧ Survives b.upper

instance (p : Program Rat) : Decidable p.RowsSurvive :=
  inferInstanceAs (Decidable (∀ b ∈ p.rows, Survives b.lower ∧ Survives b.upper))

/-- The solution of a program without variables: there is one point, and it is feasible or not. -/
def solutionAtZero (p : Program Rat) : Solution Rat :=
  if p.HoldsAtZero then ⟨.optimal, some []⟩ else ⟨.infeasible, none⟩

/-! ## The canonical form -/

section NoVariables

variable (h : p.variableCount = 0)

include h

theorem columns_eq_nil : p.columns = [] := List.length_eq_zero_iff.mp h

theorem stored_of_no_variables : p.Stored := by
  rw [Stored, columns_eq_nil h]
  exact nofun

/-- There is nothing to substitute. -/
theorem substitute_eq_self : p.substitute = p := by
  have hcolumns := columns_eq_nil h
  obtain ⟨sense, columns, rows⟩ := p
  obtain rfl : columns = [] := hcolumns
  rfl

theorem enforced_iff_holdsAtZero (z : Nat → Rat) : p.Enforced z ↔ p.HoldsAtZero := by
  have hleft : ∀ r, p.leftSide z r = 0 := fun r => by rw [leftSide, columns_eq_nil h]; rfl
  unfold Enforced HoldsAtZero
  simp only [hleft, Bounds.enforces_zero_iff]
  constructor
  · intro hall b hb
    obtain ⟨r, hr⟩ := List.getElem?_of_mem hb
    exact hall r b hr
  · exact fun hall r b hb => hall b (List.mem_of_getElem? hb)

/-- The canonical form has a solution exactly if all rows hold at zero. -/
theorem exists_solves_iff : (∃ y, p.canonicalForm.program.Solves y) ↔ p.HoldsAtZero := by
  have hp := stored_of_no_variables h
  constructor
  · rintro ⟨y, hy⟩
    obtain ⟨-, hv, hb⟩ := solves_iff_balanced.mp hy
    have henforced := canonicalForm_enforced hp (coord_nonneg hv) hb
    rw [substitute_eq_self h] at henforced
    exact (enforced_iff_holdsAtZero h _).mp henforced
  · intro hzero
    have henforced : p.substitute.Enforced fun _ => 0 := by
      rw [substitute_eq_self h]
      exact (enforced_iff_holdsAtZero h _).mpr hzero
    obtain ⟨y, hy, -⟩ := exists_solves_of_enforced hp (fun _ => le_rfl) henforced
    exact ⟨y, hy⟩

/-- Its variables are the slacks of its rows. -/
theorem canonicalForm_onlySlacks : p.canonicalForm.program.OnlySlacks := by
  intro c hc
  rw [canonicalForm_columns, substitute_eq_self h, columns_eq_nil h, List.map_nil,
    List.nil_append] at hc
  obtain ⟨d, hd, rfl⟩ := List.mem_map.mp hc
  refine ⟨?_, singleUnit_signed (mem_slackColumns_unit hd)⟩
  rw [signed, (mem_slackColumns hd).2.1, mul_zero]

/-- A row becomes two at most. -/
theorem canonicalForm_rowCount_le : p.canonicalForm.program.rowCount ≤ 2 * p.rowCount := by
  have hle := List.length_filter_le isRange p.rows
  rw [rowCount, canonicalForm, orient_rows, substitute_eq_self h]
  simp only [makeNonnegative, addSlacks, splitRanges, List.length_map, List.length_append, rowCount]
  omega

end NoVariables

/-- A range, an equality, an upper and a lower side, and a free row. -/
def hollow : Program Rat := ⟨.maximize, [], [⟨-1, 5/2⟩, ⟨0, 0⟩, .upTo 7, ⟨-1/3, sentinel⟩, .free]⟩

end Program

/-! ## Backends -/

namespace Backend

open Program (hollow)

variable {p : Program Rat}

theorem solveInternal_without_variables (h : p.variableCount = 0) {limit : Nat}
    (hl : 2 * p.rowCount + 2 ≤ limit) :
    ∃ events, solveInternal limit p = .ok (p.solutionAtZero, events) := by
  have hp := Program.stored_of_no_variables h
  have hrows := Program.canonicalForm_rowCount_le h
  have hrecoveries : p.canonicalForm.recoveries = [] :=
    List.length_eq_zero_iff.mp (p.length_recoveries.trans h)
  obtain ⟨o, ho, hv⟩ := Simplex.solveCanonical_slacks (Program.canonicalForm_stored hp)
    (Program.canonicalForm_isCanonical hp) (Program.canonicalForm_onlySlacks h)
    (show p.canonicalForm.program.rowCount + 2 ≤ limit by omega)
  refine ⟨p.canonicalForm.event p :: o.events, ?_⟩
  unfold solveInternal Program.solutionAtZero
  dsimp only
  rw [bind_eq ho]
  rcases hv with ⟨hstatus, hsolves⟩ | ⟨hstatus, hnone⟩
  · rw [if_pos hstatus, hrecoveries, if_pos ((Program.exists_solves_iff h).mp hsolves)]
    rfl
  · have hzero : ¬ p.HoldsAtZero := fun hzero =>
      ((Program.exists_solves_iff h).mpr hzero).elim hnone
    rw [hstatus, if_neg Status.noConfusion, if_neg hzero]
    rfl

theorem holdsAtZero_iff (h : p.RowsSurvive) : holdsAtZero p.toDouble = true ↔ p.HoldsAtZero := by
  unfold holdsAtZero Program.toDouble
  rw [List.all_map, List.all_eq_true]
  simp only [Function.comp_apply, Bool.and_eq_true, Bounds.toDouble]
  constructor
  · intro hall b hb
    obtain ⟨r, hr⟩ := List.getElem?_of_mem hb
    obtain ⟨hlower, hupper⟩ := hall (b, r) (List.mk_mem_zipIdx_iff_getElem?.mpr hr)
    exact ⟨(h b hb).1.isNonpositive_iff.mp hlower, (h b hb).2.isNonnegative_iff.mp hupper⟩
  · rintro hall ⟨b, r⟩ hmem
    have hb := List.fst_mem_of_mem_zipIdx hmem
    obtain ⟨hlower, hupper⟩ := hall b hb
    exact ⟨(h b hb).1.isNonpositive_iff.mpr hlower, (h b hb).2.isNonnegative_iff.mpr hupper⟩

theorem solveConic_without_variables (h : p.variableCount = 0) (hs : p.RowsSurvive)
    (conic : Format → ConicProgram → ConicAnswer) : solveConic conic p = p.solutionAtZero := by
  unfold solveConic Program.solutionAtZero
  dsimp only
  rw [if_pos (p.toDouble_variableCount.trans h)]
  simp only [holdsAtZero_iff hs]

/-- Without variables the two backends give the same solution, by any methods that they accept. It
is the empty point if all rows hold at zero, and else there is none. The engine takes at most two
turns for each row and two more. -/
theorem agree_without_variables (h : p.variableCount = 0) (hs : p.RowsSurvive) (e : Engines)
    (hl : 2 * p.rowCount + 2 ≤ e.stepLimit) {m n : Method} (hm : internal.accepts m = true)
    (hn : conic.accepts n = true) :
    (∃ events, internal.solve e p m = .ok (p.solutionAtZero, events)) ∧
      conic.solve e p n = .ok (p.solutionAtZero, []) := by
  rw [solve, if_pos hm, solve, if_pos hn]
  refine ⟨solveInternal_without_variables h hl, ?_⟩
  exact congrArg (fun s => Except.ok (s, [])) (solveConic_without_variables h hs e.conic)

/-- The rows hold at zero, and do not any more when one is added that contradicts itself. -/
theorem agree_on_hollow :
    hollow.variableCount = 0 ∧ hollow.RowsSurvive ∧ (hollow.pushRow ⟨3, 1⟩).RowsSurvive ∧
    ∀ answer : Format → ConicProgram → ConicAnswer,
      (∃ events, internal.solve ⟨12, answer⟩ hollow .simplexPrimal =
        .ok (⟨.optimal, some []⟩, events)) ∧
      conic.solve ⟨12, answer⟩ hollow .interior = .ok (⟨.optimal, some []⟩, []) ∧
      (∃ events, internal.solve ⟨14, answer⟩ (hollow.pushRow ⟨3, 1⟩) .auto =
        .ok (⟨.infeasible, none⟩, events)) ∧
      conic.solve ⟨14, answer⟩ (hollow.pushRow ⟨3, 1⟩) .auto =
        .ok (⟨.infeasible, none⟩, []) := by
  have hs : hollow.RowsSurvive := by decide +kernel
  have hs' : (hollow.pushRow ⟨3, 1⟩).RowsSurvive := by decide +kernel
  have hsolution : hollow.solutionAtZero = ⟨.optimal, some []⟩ := by decide +kernel
  have hsolution' : (hollow.pushRow ⟨3, 1⟩).solutionAtZero = ⟨.infeasible, none⟩ := by
    decide +kernel
  refine ⟨rfl, hs, hs', fun answer => ?_⟩
  have h := agree_without_variables rfl hs ⟨12, answer⟩ le_rfl (m := .simplexPrimal)
    (n := .interior) rfl rfl
  have h' := agree_without_variables rfl hs' ⟨14, answer⟩ le_rfl (m := .auto) (n := .auto) rfl rfl
  rw [hsolution] at h
  rw [hsolution'] at h'
  exact ⟨h.1, h.2, h'⟩

end Backend
end LinearProgramming
