import LinearProgramming.Proofs.Mps.ReadBack
import LinearProgramming.Proofs.FreeRows
import LinearProgramming.Proofs.Canonical.Sides

/-!
# Ranges without a sign

Other solvers take the range of a row that is bounded below as a width, and a width has no sign. If
the bounds of a row are in the wrong order, its width is negative: no value is admitted by the row,
but some are by what is read.

* `Bounds.Crossed`: such bounds; they are never met;
* `Bounds.unfolded`, `Program.unfolded`: what is read of a row, and of a program;
* `Program.mps_unfolded`: the points of a program and of its file are the same unless a row is
  crossed and the file still has a point;
* `Model.crossed_gains_point`: that happens.
-/

namespace LinearProgramming

/-! ## Rows -/

namespace Bounds

variable {b : Bounds Rat} {x : Rat}

/-- Two finite bounds in the wrong order. -/
def Crossed (b : Bounds Rat) : Prop := b.kind = .double ∧ b.upper < b.lower

instance (b : Bounds Rat) : Decidable b.Crossed :=
  inferInstanceAs (Decidable (b.kind = .double ∧ b.upper < b.lower))

/-- The bounds that are as far above the lower one as the two are apart. -/
def unfolded (b : Bounds Rat) : Bounds Rat :=
  if b.kind = .double then ⟨b.lower, b.lower + |b.upper - b.lower|⟩ else b

theorem Crossed.not_admits (h : b.Crossed) : ¬ b.Admits x := by
  obtain ⟨lower, upper⟩ := b
  obtain ⟨hk, hlt⟩ := h
  have hends := kind_ends lower upper
  rw [hk] at hends
  cases hends with
  | double hl hu =>
    rintro ⟨hlower, hupper⟩
    have hlower : lower ≤ x := hlower.resolve_left (mt isUnboundedBelow_iff.mp hl)
    have hupper : x ≤ upper := hupper.resolve_left (mt isUnboundedAbove_iff.mp hu)
    exact absurd (hlower.trans hupper) (not_le.mpr hlt)

theorem unfolded_eq (h : ¬ b.Crossed) : b.unfolded = b := by
  unfold unfolded
  split
  · next hk =>
    have hle : b.lower ≤ b.upper := not_lt.mp fun hlt => h ⟨hk, hlt⟩
    rw [abs_of_nonneg (sub_nonneg.mpr hle), add_sub_cancel]
  · rfl

/-- Nothing that a row admits is lost. -/
theorem Admits.unfolded (h : b.Admits x) : b.unfolded.Admits x := by
  rwa [unfolded_eq fun hcrossed => hcrossed.not_admits h]

end Bounds

/-- Without its sign, the width of a range gives a bound above the other. -/
@[simp]
theorem Mps.of_bounds_absolute (b : Bounds Rat) :
    (RowDraft.of b).bounds .absolute = b.unfolded := by
  obtain ⟨lower, upper⟩ := b
  have hends := Bounds.kind_ends lower upper
  unfold RowDraft.of rowRelation rowConstant Bounds.unfolded
  generalize Bounds.kind ⟨lower, upper⟩ = kind at hends ⊢
  cases hends <;> rfl

/-! ## Programs -/

namespace Program

variable {p : Program Rat} {x : List Rat}

/-- The program in which the ranges of all rows go upwards. -/
def unfolded (p : Program Rat) : Program Rat := { p with rows := p.rows.map Bounds.unfolded }

theorem Feasible.unfolded (h : p.Feasible x) : p.unfolded.Feasible x where
  length := h.length
  bounds := h.bounds
  rows := by
    intro r b hb
    rw [Program.unfolded, List.getElem?_map, Option.map_eq_some_iff] at hb
    obtain ⟨d, hd, rfl⟩ := hb
    exact (h.rows r d hd).unfolded

/-- A crossed row is never kept. -/
theorem Feasible.not_crossed (h : p.Feasible x) : ∀ b ∈ p.rows, ¬ b.Crossed := by
  intro b hb hcrossed
  obtain ⟨r, hr⟩ := List.mem_iff_getElem?.mp hb
  exact hcrossed.not_admits (h.rows r b hr)

theorem unfolded_eq (h : ∀ b ∈ p.rows, ¬ b.Crossed) : p.unfolded = p := by
  have hrows : p.rows.map Bounds.unfolded = p.rows := by
    rw [List.map_congr_left fun b hb => Bounds.unfolded_eq (h b hb), List.map_id']
  rw [Program.unfolded, hrows]

theorem unfolded_feasible_iff : (∀ x, p.unfolded.Feasible x ↔ p.Feasible x) ↔
    (∀ b ∈ p.rows, ¬ b.Crossed) ∨ ∀ x, ¬ p.unfolded.Feasible x := by
  constructor
  · intro h
    by_cases hx : ∃ x, p.unfolded.Feasible x
    · obtain ⟨x, hx⟩ := hx
      exact .inl ((h x).mp hx).not_crossed
    · exact .inr (not_exists.mp hx)
  · rintro (h | h) x
    · rw [unfolded_eq h]
    · exact iff_of_false (h x) fun hx => h x hx.unfolded

section File

variable {number? : String → Option Binary} (hstored : p.Stored) (hsparse : p.Sparse)
  (hexact : p.Expressible) (hread : ∀ t ∈ p.mpsRecords, Mps.Legible number? t)
include hstored hsparse hexact hread

theorem read_absolute : Mps.read number? .absolute p.mps = .ok p.unfolded := by
  rw [Mps.read_mps hstored hsparse hexact hread]
  simp only [Mps.of_bounds_absolute]
  rfl

/-- What other solvers read of the file of a program has the points of the program, and no others
unless a row is crossed and what they read has a point. -/
theorem mps_unfolded : Mps.read number? .absolute p.mps = .ok p.unfolded ∧
    (∀ x, p.Feasible x → p.unfolded.Feasible x) ∧
    ((∀ x, p.unfolded.Feasible x ↔ p.Feasible x) ↔
      (∀ b ∈ p.rows, ¬ b.Crossed) ∨ ∀ x, ¬ p.unfolded.Feasible x) :=
  ⟨read_absolute hstored hsparse hexact hread, fun _ h => h.unfolded, unfolded_feasible_iff⟩

end File

end Program

/-- A nonnegative variable that is at least 3 and at most 1. -/
def crossed : Program Rat := ⟨.minimize, [⟨.nonnegative, 0, [(0, 1)]⟩], [⟨3, 1⟩]⟩

theorem crossed_expressible : crossed.Expressible :=
  ⟨by decide +kernel, by decide +kernel, by decide +kernel, by decide +kernel, by decide +kernel⟩

theorem crossed_legible : ∀ t ∈ crossed.mpsRecords, Mps.Legible Mps.decimal? t := by
  decide +kernel

/-- What is read of it admits the values from 3 to 5. -/
theorem crossed_unfolded_feasible : crossed.unfolded.Feasible [4] where
  length := rfl
  bounds
    | 0, _, rfl => ⟨.inr (by decide +kernel), .inl rfl⟩
  rows
    | 0, _, rfl => by
      have hleft : crossed.unfolded.leftSide (coord [4]) 0 = 4 := by
        simp [Program.leftSide, Program.unfolded, crossed, weigh, Column.coefficient]
      rw [hleft]
      exact ⟨.inr (by decide +kernel), .inr (by decide +kernel)⟩

theorem crossed_spreads : crossed.Stored ∧ crossed.Sparse ∧ crossed.Expressible ∧
    (∀ t ∈ crossed.mpsRecords, Mps.Legible Mps.decimal? t) ∧
    Mps.read Mps.decimal? .absolute crossed.mps = .ok crossed.unfolded ∧
    ¬ ∀ x, crossed.unfolded.Feasible x ↔ crossed.Feasible x := by
  have hstored : crossed.Stored := by decide
  have hsparse : crossed.Sparse := by decide +kernel
  have hrow : (⟨3, 1⟩ : Bounds Rat).Crossed := by decide +kernel
  obtain ⟨hfile, -, hiff⟩ :=
    Program.mps_unfolded hstored hsparse crossed_expressible crossed_legible
  refine ⟨hstored, hsparse, crossed_expressible, crossed_legible, hfile, ?_⟩
  rw [hiff, not_or]
  exact ⟨fun h => h _ List.mem_cons_self hrow, fun h => h _ crossed_unfolded_feasible⟩

/-- Three commands make the program, and its file has a point that it does not have. -/
theorem Model.crossed_gains_point : ∃ (m : Model Rat) (q : Program Rat),
    (∀ e : Engines, Reachable e m) ∧ m.program = crossed ∧ m.program.Proper ∧
      ¬ m.program.HasFreeRow ∧ m.program.Expressible ∧
      (∀ t ∈ m.program.mpsRecords, Mps.Legible Mps.decimal? t) ∧
      Mps.read Mps.decimal? .absolute m.program.mps = .ok q ∧
      q.Feasible [4] ∧ ¬ m.program.Feasible [4] := by
  have hm (e : Engines) : Reachable e (ofProgram crossed) := (Reachable.new .minimize).after
    [.addVariables 1 .nonnegative, .addRow ⟨3, 1⟩, .setCoefficient 0 0 (1 : Rat)]
  have hrow : (⟨3, 1⟩ : Bounds Rat).Crossed := by decide +kernel
  have hfree : ¬ crossed.HasFreeRow := by
    rintro ⟨b, hb, hk⟩
    rw [List.mem_singleton.mp hb, hrow.1] at hk
    cases hk
  refine ⟨_, crossed.unfolded, hm, rfl, by decide +kernel, hfree, crossed_expressible,
    crossed_legible, ?_, crossed_unfolded_feasible,
    fun h => h.not_crossed _ List.mem_cons_self hrow⟩
  exact Program.read_absolute (p := crossed) (by decide) (by decide +kernel) crossed_expressible
    crossed_legible

end LinearProgramming
