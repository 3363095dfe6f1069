import LinearProgramming.Proofs.Optimum
import LinearProgramming.Proofs.Stored

/-!
# Opposite programs

A program and its opposite ask for the same optima, once by the costs and once by their negations.
The passes to the canonical form do not look at the sense before the last one, which makes the two
equal, so they are solved turn by turn in the same way.

* `Program.opposite`: the other sense, with all costs negated.
* `Program.optimal_opposite`: the two have the same optima.
* `Substitution.replace_opposite`, `Program.splitRanges_opposite`, `Program.addSlacks_opposite`,
  `Program.makeNonnegative_opposite`: the passes take opposites to opposites.
* `Program.canonicalForm_opposite`: the canonical forms are equal.
* `Model.solve_opposite`: so are the solves, and the objectives differ in the sign.
-/

namespace LinearProgramming

def Sense.opposite : Sense → Sense
  | .minimize => .maximize
  | .maximize => .minimize

/-- The variable with its cost negated. -/
def Column.opposite (c : Column Rat) : Column Rat := { c with cost := -c.cost }

/-- The program that asks for the least where the other asks for the most, and the reverse. -/
def Program.opposite (p : Program Rat) : Program Rat :=
  { p with sense := p.sense.opposite, columns := p.columns.map Column.opposite }

/-- All variables of the substitution with their costs negated. -/
def Substitution.opposite (s : Substitution Rat) : Substitution Rat :=
  { s with
    replaced := s.replaced.map Column.opposite
    partners := s.partners.map Column.opposite }

/-! ## Objectives -/

theorem Sense.opposite_better (s : Sense) (v w : Rat) :
    s.opposite.Better (-v) (-w) ↔ s.Better v w := by
  cases s with
  | minimize => exact neg_lt_neg_iff
  | maximize => exact neg_lt_neg_iff

namespace Program

variable {p : Program Rat}

theorem costs_opposite (p : Program Rat) : p.opposite.costs = p.costs.map fun x => -x := by
  simp only [costs, opposite, List.map_map]
  rfl

/-- At every point the objective of the opposite is the negated one. -/
theorem objective_opposite (p : Program Rat) (x : List Rat) :
    p.opposite.objective x = -p.objective x := by
  have hstep : ∀ (sum : Rat) (t : Rat × Rat), -sum + -t.1 * t.2 = -(sum + t.1 * t.2) :=
    fun sum t => by ring
  rw [objective, costs_opposite, List.zip_map_left, List.foldl_map]
  change List.foldl (fun sum (t : Rat × Rat) => sum + -t.1 * t.2) (-0) _ = _
  exact List.foldl_hom (fun v : Rat => -v) hstep

@[simp]
theorem variableCount_opposite (p : Program Rat) :
    p.opposite.variableCount = p.variableCount := List.length_map _

@[simp]
theorem opposite_opposite (p : Program Rat) : p.opposite.opposite = p := by
  obtain ⟨sense, columns, rows⟩ := p
  cases sense <;> simp [opposite, Sense.opposite, Column.opposite, Function.comp_def]

theorem Feasible.opposite {x : List Rat} (h : p.Feasible x) : p.opposite.Feasible x where
  length := h.length.trans p.variableCount_opposite.symm
  bounds j c hc := by
    rw [Program.opposite, List.getElem?_map] at hc
    obtain ⟨d, hd, rfl⟩ := Option.map_eq_some_iff.mp hc
    exact h.bounds j d hd
  rows r b hb := by
    have hleft : p.opposite.leftSide (coord x) r = p.leftSide (coord x) r := by
      simp only [leftSide, Program.opposite, List.map_map]
      rfl
    rw [hleft]
    exact h.rows r b hb

theorem feasible_opposite {x : List Rat} : p.opposite.Feasible x ↔ p.Feasible x :=
  ⟨fun h => p.opposite_opposite ▸ h.opposite, Feasible.opposite⟩

/-- The opposite has the same optima. -/
theorem optimal_opposite {x : List Rat} : p.opposite.Optimal x ↔ p.Optimal x := by
  unfold Optimal
  simp only [feasible_opposite, objective_opposite]
  exact and_congr_right fun _ => forall₂_congr fun y _ =>
    not_congr (Sense.opposite_better p.sense ..)

end Program

/-! ## Passes -/

/-- Replacing a variable by others does the same to its negated cost. -/
theorem Substitution.replace_opposite (s : Substitution Rat) (n : Nat) (c : Column Rat) :
    s.opposite.replace n c.opposite = (s.replace n c).opposite := by
  cases hbelow : c.bounds.isUnboundedBelow with
  | false =>
    rw [replace_shift hbelow, replace_shift (c := c.opposite) hbelow]
    simp [shift, opposite, Column.opposite]
  | true =>
    cases habove : c.bounds.isUnboundedAbove with
    | false =>
      rw [replace_reflect hbelow habove, replace_reflect (c := c.opposite) hbelow habove]
      simp [reflect, opposite, Column.opposite]
    | true =>
      rw [replace_split hbelow habove, replace_split (c := c.opposite) hbelow habove]
      simp [split, opposite, Column.opposite]

namespace Program

theorem substitution_opposite (p : Program Rat) :
    p.opposite.substitution = p.substitution.opposite := by
  rw [substitution, variableCount_opposite, opposite, List.foldl_map]
  change List.foldl _ (Substitution.opposite ⟨[], [], p.rows, []⟩) _ = _
  exact List.foldl_hom Substitution.opposite fun s c => s.replace_opposite p.variableCount c

theorem substitute_opposite (p : Program Rat) : p.opposite.substitute = p.substitute.opposite := by
  rw [substitute, substitution_opposite]
  simp [substitute, Substitution.program, opposite, Substitution.opposite]

theorem splitRanges_opposite (p : Program Rat) :
    p.opposite.splitRanges = p.splitRanges.opposite := by
  simp only [splitRanges, opposite, List.map_map]
  rfl

/-- The cost of a slack is zero and remains so. -/
theorem addSlacks_opposite (p : Program Rat) : p.opposite.addSlacks = p.addSlacks.opposite := by
  simp only [addSlacks, opposite, List.map_append, List.map_filterMap, Option.map_map]
  -- what is left are the slacks, with costs 0 and -0
  simp [Function.comp_def, Column.opposite]

theorem makeNonnegative_opposite (p : Program Rat) :
    p.opposite.makeNonnegative = p.makeNonnegative.opposite := by
  simp only [makeNonnegative, opposite, List.map_map]
  rfl

/-- To be made a minimization, one of the two has its costs negated. -/
theorem orient_opposite (p : Program Rat) : p.opposite.orient = p.orient := by
  obtain ⟨sense, columns, rows⟩ := p
  cases sense with
  | minimize => simp [orient, opposite, Sense.opposite, Column.opposite, Function.comp_def]
  | maximize => rfl

theorem canonicalForm_opposite (p : Program Rat) : p.opposite.canonicalForm = p.canonicalForm := by
  simp only [canonicalForm, substitution_opposite, substitute_opposite, splitRanges_opposite,
    addSlacks_opposite, makeNonnegative_opposite, orient_opposite]
  rfl

end Program

/-! ## Solves -/

theorem CanonicalForm.event_opposite (f : CanonicalForm Rat) (p : Program Rat) :
    f.event p.opposite = f.event p := by
  simp [event]
  rfl

theorem Backend.solveInternal_opposite (limit : Nat) (p : Program Rat) :
    Backend.solveInternal limit p.opposite = Backend.solveInternal limit p := by
  simp only [Backend.solveInternal, Program.canonicalForm_opposite, CanonicalForm.event_opposite]

namespace Model

/-- The engine gives the same result and the same reports for a program and its opposite. -/
theorem result_opposite (e : Engines) {c : Config} (hs : c.solver = .internal ∨ c.solver = .auto)
    (p : Program Rat) : result e c p.opposite = result e c p := by
  simp only [result, choose_internal hs, Backend.solve, Backend.solveInternal_opposite]

/-- A solve is told by its result, but for the program that is kept. -/
theorem solve_congr {m n : Model Rat} {e : Engines} {c : Config}
    (h : result e c n.program = result e c m.program) : (n.solve e c).2 = (m.solve e c).2 ∧
      (n.solve e c).1.status = (m.solve e c).1.status ∧
        (n.solve e c).1.solution = (m.solve e c).1.solution := by
  simp only [solve, h]
  cases (result e c m.program).1 with
  | error => exact ⟨rfl, rfl, rfl⟩
  | ok => exact ⟨rfl, rfl, rfl⟩

/-- At the same values the objectives differ in the sign. -/
theorem objective_opposite {m n : Model Rat} (hp : n.program = m.program.opposite)
    (hs : n.solution = m.solution) : n.objective = m.objective.map fun v => -v := by
  unfold objective values
  rw [hs, hp]
  cases m.solution with
  | none => rfl
  | some xs => exact congrArg Except.ok (m.program.objective_opposite xs)

/-- A model of the opposite program has the same canonical form. The engine solves it by the same
turns, with the same status and values, or fails in the same way; the objective is the negated
one. -/
theorem solve_opposite {m n : Model Rat} (h : n.program = m.program.opposite) (e : Engines)
    {c : Config} (hs : c.solver = .internal ∨ c.solver = .auto) :
    n.program.canonicalForm = m.program.canonicalForm ∧
    Simplex.runCanonical e.stepLimit n.program.canonicalForm.program =
      Simplex.runCanonical e.stepLimit m.program.canonicalForm.program ∧
    (n.solve e c).2 = (m.solve e c).2 ∧
    (n.solve e c).1.status = (m.solve e c).1.status ∧
    (n.solve e c).1.solution = (m.solve e c).1.solution ∧
    (n.solve e c).1.objective = (m.solve e c).1.objective.map fun v => -v := by
  have hresult : result e c n.program = result e c m.program := by rw [h, result_opposite e hs]
  obtain ⟨hreturn, hstatus, hsolution⟩ := solve_congr hresult
  have hform : n.program.canonicalForm = m.program.canonicalForm := by
    rw [h, Program.canonicalForm_opposite]
  refine ⟨hform, by rw [hform], hreturn, hstatus, hsolution, ?_⟩
  refine objective_opposite ?_ hsolution
  rw [solve_program, solve_program, h]

/-- The largest value of a mixture, and the least of its opposite. -/
theorem solve_mixture_opposite :
    (ofProgram Program.mixture.opposite).program = Program.mixture.opposite ∧
    Config.internal.solver = .internal ∧ Program.mixture.sense = .maximize ∧
    ∀ conic : Format → ConicProgram → ConicAnswer,
      ((ofProgram Program.mixture.opposite).solve ⟨20, conic⟩ .internal).1.solution =
        some [2, 3, 1] ∧
      ((ofProgram Program.mixture).solve ⟨20, conic⟩ .internal).1.objective = .ok 7 ∧
      ((ofProgram Program.mixture.opposite).solve ⟨20, conic⟩ .internal).1.objective =
        .ok (-7) := by
  refine ⟨rfl, rfl, rfl, fun conic => ?_⟩
  have hsolution : ((ofProgram Program.mixture).solve ⟨20, conic⟩ .internal).1.solution =
      some [2, 3, 1] := by
    rw [solve, ofProgram, mixture_result]
    rfl
  have hvalue : Program.mixture.objective [2, 3, 1] = 7 := by decide +kernel
  have hobjective : ((ofProgram Program.mixture).solve ⟨20, conic⟩ .internal).1.objective =
      .ok 7 := by
    rw [objective, values, hsolution, solve_program, ← hvalue]
    rfl
  obtain ⟨-, -, -, -, hsame, hneg⟩ := solve_opposite (m := ofProgram Program.mixture)
    (n := ofProgram Program.mixture.opposite) rfl ⟨20, conic⟩ (c := .internal) (.inl rfl)
  refine ⟨hsame.trans hsolution, hobjective, ?_⟩
  rw [hneg, hobjective]
  rfl

end Model

end LinearProgramming
