import LinearProgramming.Model
import LinearProgramming.Proofs.Canonical.Form
import LinearProgramming.Proofs.Simplex.Verdict

/-!
# What a solve says of a program

* `optimal_of_cheapest`, `not_feasible`, `unbounded_of_bottomless`: the verdict on the canonical
  form is one on the program;
* `solveInternal_ok`: the internal backend either runs out of turns or gives a true verdict;
* `solve_correct`: the same of a model that is solved by it.
-/

namespace LinearProgramming

theorem Sense.better_iff (s : Sense) (v w : Rat) : s.Better v w ↔ s.sign * v < s.sign * w := by
  cases s with
  | minimize => simp [Better, sign]
  | maximize => simp [Better, sign]

namespace Program

variable {p : Program Rat}

/-! ## Verdicts on the canonical form -/

theorem optimal_of_cheapest (hp : p.Stored) (ht : p.Tame) {y : List Rat}
    (h : p.canonicalForm.program.Cheapest y) :
    ∃ x, recoverAll p.canonicalForm.recoveries y = .ok x ∧ p.Optimal x := by
  obtain ⟨x, hx, hf, ho⟩ := recovered hp ht h.1
  refine ⟨x, hx, hf, ?_⟩
  intro w hw hbetter
  obtain ⟨z, hz, hzw⟩ := exists_solves hp ht hw
  obtain ⟨u, hu, -, hzo⟩ := recovered hp ht hz
  obtain rfl := Except.ok.inj (hu.symm.trans hzw)
  have hle := h.2 z hz
  rw [ho, hzo] at hle
  have hlt := (Sense.better_iff ..).mp hbetter
  linarith

theorem not_feasible (hp : p.Stored) (ht : p.Tame)
    (h : ∀ y, ¬ p.canonicalForm.program.Solves y) (x : List Rat) : ¬ p.Feasible x := by
  intro hx
  obtain ⟨y, hy, -⟩ := exists_solves hp ht hx
  exact h y hy

theorem unbounded_of_bottomless (hp : p.Stored) (ht : p.Tame)
    (h : p.canonicalForm.program.Bottomless) : p.Unbounded := by
  intro value
  obtain ⟨y, hy, hlt⟩ := h (p.sense.sign * value + -(p.sense.sign * p.constant))
  obtain ⟨x, -, hf, ho⟩ := recovered hp ht hy
  refine ⟨x, hf, (Sense.better_iff ..).mpr ?_⟩
  rw [ho] at hlt
  linarith

end Program

/-! ## Solves -/

/-- The solution says what is true of the program. -/
def Solution.Truthful (p : Program Rat) (s : Solution Rat) : Prop :=
  (s.status = .optimal ∧ ∃ x, s.values = some x ∧ p.Optimal x) ∨
    (s.status = .infeasible ∧ ∀ x, ¬ p.Feasible x) ∨ (s.status = .unbounded ∧ p.Unbounded)

theorem solveInternal_ok {p : Program Rat} (hp : p.Stored) (ht : p.Tame) (limit : Nat) :
    Backend.solveInternal limit p = .error .stepLimit ∨
      ∃ s events, Backend.solveInternal limit p = .ok (s, events) ∧ s.Truthful p := by
  unfold Backend.solveInternal
  dsimp only
  rcases Simplex.solveCanonical_ok (Program.canonicalForm_stored hp)
    (Program.canonicalForm_isCanonical hp) limit with hlimit | ⟨o, ho, hv⟩
  · rw [hlimit]
    exact .inl rfl
  · refine .inr ?_
    rw [bind_eq ho]
    rcases hv with ⟨hs, hc⟩ | ⟨hs, hn⟩ | ⟨hs, hb⟩
    · obtain ⟨x, hx, hopt⟩ := Program.optimal_of_cheapest hp ht hc
      simp only [hs, if_true, hx]
      exact ⟨_, _, rfl, .inl ⟨rfl, x, rfl, hopt⟩⟩
    · simp only [hs, reduceCtorEq, if_false]
      exact ⟨_, _, rfl, .inr (.inl ⟨rfl, Program.not_feasible hp ht hn⟩)⟩
    · simp only [hs, reduceCtorEq, if_false]
      exact ⟨_, _, rfl, .inr (.inr ⟨rfl, Program.unbounded_of_bottomless hp ht hb⟩)⟩

/-- An exact program is solved by the engine unless another backend is chosen. -/
theorem choose_internal {c : Config} (hs : c.solver = .internal ∨ c.solver = .auto) :
    Backend.choose (Scalar.exact Rat) c = .ok .internal := by
  rcases hs with hs | hs
  · rw [Backend.choose, hs]
  · rw [Backend.choose, hs]
    rfl

theorem result_internal (e : Engines) {c : Config} (hs : c.solver = .internal ∨ c.solver = .auto)
    (hm : c.method = .auto ∨ c.method = .simplexPrimal) (p : Program Rat) :
    (∀ f, Backend.solveInternal e.stepLimit p = .error f → (Model.result e c p).1 = .error f) ∧
      ∀ s events, Backend.solveInternal e.stepLimit p = .ok (s, events) →
        (Model.result e c p).1 = .ok s := by
  have haccepts : Backend.internal.accepts c.method = true := by
    rcases hm with hm | hm <;> (rw [hm]; rfl)
  have hsolve : Backend.internal.solve e p c.method = Backend.solveInternal e.stepLimit p := by
    simp [Backend.solve, haccepts]
  unfold Model.result
  rw [choose_internal hs]
  dsimp only
  rw [hsolve]
  constructor
  · intro f hf
    rw [hf]
  · intro s events hok
    rw [hok]

/-- A model that is solved by the internal engine is told the truth, if it is told anything: an
optimum is feasible and no feasible point is better, an infeasible program has no feasible point,
and an unbounded one has points better than any value. -/
theorem solve_correct (e : Engines) {c : Config} {m : Model Rat} (hp : m.program.Stored)
    (ht : m.program.Tame) (hs : c.solver = .internal ∨ c.solver = .auto)
    (hm : c.method = .auto ∨ c.method = .simplexPrimal) :
    (m.solve e c).2.1 = .error .stepLimit ∨
    ((m.solve e c).2.1 = .ok true ∧ (m.solve e c).1.status = some .optimal ∧
      ∃ x, (m.solve e c).1.values = .ok x ∧ x.length = m.program.variableCount ∧
        (m.solve e c).1.objective = .ok (m.program.objective x) ∧ m.program.Optimal x) ∨
    ((m.solve e c).2.1 = .ok false ∧ (m.solve e c).1.status = some .infeasible ∧
      ∀ x, ¬ m.program.Feasible x) ∨
    ((m.solve e c).2.1 = .ok false ∧ (m.solve e c).1.status = some .unbounded ∧
      m.program.Unbounded) := by
  obtain ⟨hfail, hok⟩ := result_internal e hs hm m.program
  unfold Model.solve
  rcases solveInternal_ok hp ht e.stepLimit with hlimit | ⟨s, events, hsolve, htrue⟩
  · dsimp only
    rw [hfail _ hlimit]
    exact .inl rfl
  · dsimp only
    rw [hok s events hsolve]
    obtain ⟨status, values⟩ := s
    rcases htrue with ⟨rfl, x, rfl, hopt⟩ | ⟨rfl, hn⟩ | ⟨rfl, hu⟩
    · exact .inr (.inl ⟨rfl, rfl, x, rfl, hopt.1.length, rfl, hopt⟩)
    · exact .inr (.inr (.inl ⟨rfl, rfl, hn⟩))
    · exact .inr (.inr (.inr ⟨rfl, rfl, hu⟩))

theorem mixture_result (conic : Format → ConicProgram → ConicAnswer) :
    (Model.result ⟨20, conic⟩ .internal Program.mixture).1 = .ok ⟨.optimal, some [2, 3, 1]⟩ := by
  have hs : (Backend.solveInternal 20 Program.mixture).map Prod.fst =
      .ok ⟨.optimal, some [2, 3, 1]⟩ := by
    decide +kernel
  obtain ⟨-, hok⟩ := result_internal ⟨20, conic⟩ (c := .internal) (.inl rfl) (.inl rfl)
    Program.mixture
  cases hr : Backend.solveInternal 20 Program.mixture with
  | error f =>
    rw [hr] at hs
    cases hs
  | ok r =>
    rw [hr] at hs
    rw [hok r.1 r.2 hr]
    exact hs

theorem solve_mixture : Program.mixture.Stored ∧ Program.mixture.Tame ∧
    Config.internal.solver = .internal ∧ Config.internal.method = .auto ∧
      ∀ conic : Format → ConicProgram → ConicAnswer,
        ((Model.ofProgram Program.mixture).solve ⟨20, conic⟩ .internal).1.values = .ok [2, 3, 1] ∧
          Program.mixture.Optimal [2, 3, 1] := by
  have hs : Program.mixture.Stored := by decide
  refine ⟨hs, Program.mixture_tame, rfl, rfl, fun conic => ?_⟩
  have hvalues : ((Model.ofProgram Program.mixture).solve ⟨20, conic⟩ .internal).1.values =
      .ok [2, 3, 1] := by
    rw [Model.solve, Model.ofProgram, mixture_result]
    rfl
  have hreturn : ((Model.ofProgram Program.mixture).solve ⟨20, conic⟩ .internal).2.1 =
      .ok true := by
    rw [Model.solve, Model.ofProgram, mixture_result]
    rfl
  refine ⟨hvalues, ?_⟩
  rcases solve_correct ⟨20, conic⟩ (m := .ofProgram Program.mixture) (c := .internal) hs
    Program.mixture_tame (.inl rfl) (.inl rfl) with h | ⟨-, -, x, hx, -, -, hopt⟩ | ⟨h, -⟩ | ⟨h, -⟩
  · rw [hreturn] at h
    cases h
  · obtain rfl := Except.ok.inj (hx.symm.trans hvalues)
    exact hopt
  · rw [hreturn] at h
    cases h
  · rw [hreturn] at h
    cases h

end LinearProgramming
