import LinearProgramming.Model
import LinearProgramming.Proofs.Canonical.Checked
import LinearProgramming.Proofs.Canonical.Form
import LinearProgramming.Proofs.Simplex.Trace
import LinearProgramming.Proofs.Stored

/-!
# No turn goes wrong

The engine takes the lower bounds of all rows for right-hand sides, also where they are negative or
those of a range. Its verdicts mean nothing then, but the lengths of its vectors do not depend on
the values in them, and that is enough for all that it reads:

* `SafeTurn`: everything that a turn reads is there, and it divides by nothing that is zero;
* `Shaped.safeTurn`, `Shaped.advance_ok`: this is so in every state whose vectors fit together, and
  the next state is one of these again;
* `RunsSafely`, `runsSafely`: the runs of any length on a stored program;
* `solve_path_safe`: canonical form, engine and recovery, for the programs that can be built.
-/

namespace LinearProgramming.Simplex

namespace State

/-- The cleanup after the first `n` rows. -/
def cleanupAfter (s : State Rat) (n : Nat) : Except Fault (Cleanup Rat) :=
  (List.range n).foldlM Cleanup.look ⟨{ s with phase := .two }, [], []⟩

/-- Everything that a turn reads is there, and whatever it exchanges by is not zero. -/
structure SafeTurn (s : State Rat) : Prop where
  returns : ∃ turn, s.advance = .ok turn
  finishes : ∃ result, s.finishPhaseOne = .ok result
  /-- The pivot of an exchange by the ratio test. -/
  pivot : ∀ j d i, s.entering? = .ok (some j) → s.direction j = .ok d →
    s.leaving? d = .ok (some i) → i < d.length ∧ coord d i ≠ 0
  /-- The pivot of an exchange that takes an artificial variable out of the basis. -/
  driveOut : ∀ n < s.rowCount, ∃ c next, s.cleanupAfter n = .ok c ∧ c.look n = .ok next ∧
    c.Looked n next
  /-- The basic variables have costs when these are loaded. -/
  loads : ∃ c t, s.cleanupAfter s.rowCount = .ok c ∧ c.state.restrict c.keep = .ok t ∧
    ∀ r ∈ t.rows, r.basic < t.costs.length

/-! ## Turns -/

variable {s : State Rat}

theorem Shaped.withPhase (h : s.Shaped) (phase : Phase) : ({ s with phase } : State Rat).Shaped :=
  ⟨h.columns, h.costs, h.inverses, h.basics, h.inBasis, h.values⟩

theorem Shaped.cleanupAfter_ok (h : s.Shaped) {n : Nat} (hn : n ≤ s.rowCount) :
    ∃ c, s.cleanupAfter n = .ok c ∧ c.Fits s n := by
  have start : Cleanup.Fits s 0 ⟨{ s with phase := .two }, [], []⟩ :=
    ⟨h.withPhase .two, rfl, rfl, rfl, fun r hr => by simp at hr⟩
  obtain ⟨c, hc, hf⟩ := foldlM_ok Cleanup.look (List.range n) _ (fun k c => c.Fits s k) start
    fun k hk c hc => by
      rw [List.getElem_range]
      have hk : k < s.rowCount := (List.length_range (n := n) ▸ hk).trans_le hn
      obtain ⟨next, hnext, looked⟩ := Cleanup.look_looked hc.shaped (hc.rowCount ▸ hk)
      exact ⟨next, hnext, hc.looked hk looked⟩
  rw [List.length_range] at hf
  exact ⟨c, hc, hf⟩

/-- Finishing phase one fails nowhere, and what it leaves fits together. -/
theorem Shaped.finishPhaseOne_ok (h : s.Shaped) :
    ∃ result, s.finishPhaseOne = .ok result ∧ ∀ t events, result = some (t, events) →
      t.Shaped ∧ t.variableCount = s.variableCount := by
  unfold finishPhaseOne
  rw [below_eq]
  by_cases ha : 0 < s.artificialSum
  · refine ⟨none, ?_, fun t events e => by cases e⟩
    simp only [ha, decide_true, if_true]
    rfl
  · obtain ⟨c, hc, hf⟩ := h.cleanupAfter_ok le_rfl
    have hl := hf.keep.trans hf.rowCount.symm
    refine ⟨some (c.state.restricted c.keep, c.events ++
      (if c.keep.count false = 0 then [] else [.redundant (c.keep.count false)]) ++
        [.phaseTwo (c.state.restricted c.keep).rowCount]), ?_, ?_⟩
    · simp only [ha, decide_false, Bool.false_eq_true, if_false]
      rw [bind_eq (show (List.range s.rowCount).foldlM _ _ = _ from hc), ← bind_assoc,
        bind_eq (restricted_eq_ok hf.shaped hl hf.basics)]
      rfl
    · rintro t events e
      cases e
      exact ⟨restricted_shaped hf.shaped hl,
        (restricted_variableCount _ _).trans hf.variableCount⟩

/-- A turn fails nowhere, and the next state fits together. -/
theorem Shaped.advance_ok (h : s.Shaped) :
    ∃ turn, s.advance = .ok turn ∧ ∀ t events, turn = .moved t events →
      t.Shaped ∧ t.variableCount = s.variableCount := by
  have he := h.entering?_eq_ok
  generalize (List.range s.variableCount).find? _ = entering at he
  cases entering with
  | some j =>
    obtain ⟨turn, ht, m⟩ := advance_entering (b := fun _ => 0) h he
    refine ⟨turn, ht, ?_⟩
    rintro t events rfl
    cases m with
    | reduced _ _ _ r => exact ⟨r.solved.shaped, by simp [State.variableCount, r.columns]⟩
    | pivoted _ _ _ e => exact ⟨e.shaped, e.variableCount_eq⟩
  | none =>
    obtain ⟨result, hr, hnext⟩ := h.finishPhaseOne_ok
    unfold advance
    rw [bind_eq he]
    cases s.phase with
    | two => exact ⟨_, rfl, fun t events e => by cases e⟩
    | one =>
      dsimp only
      rw [bind_eq hr]
      cases result with
      | none => exact ⟨_, rfl, fun t events e => by cases e⟩
      | some next =>
        refine ⟨_, rfl, ?_⟩
        rintro t events e
        cases e
        exact hnext _ _ rfl

theorem Shaped.safeTurn (h : s.Shaped) : s.SafeTurn where
  returns := h.advance_ok.imp fun _ => And.left
  finishes := h.finishPhaseOne_ok.imp fun _ => And.left
  pivot j d i he hd hi := by
    obtain ⟨f, hf, hl, -⟩ := h.direction_eq_ok (h.entering?_eq_some he).1
    obtain rfl := Except.ok.inj (hf.symm.trans hd)
    obtain ⟨best, hb, -, hleaves⟩ := leaving?_ok h hl
    obtain rfl := Except.ok.inj (hb.symm.trans hi)
    obtain ⟨hlt, hpos, -⟩ := hleaves i rfl
    exact ⟨hl ▸ hlt, hpos.ne'⟩
  driveOut n hn := by
    obtain ⟨c, hc, hf⟩ := h.cleanupAfter_ok hn.le
    obtain ⟨next, hnext, looked⟩ := Cleanup.look_looked hf.shaped (hf.rowCount ▸ hn)
    exact ⟨c, next, hc, hnext, looked⟩
  loads := by
    obtain ⟨c, hc, hf⟩ := h.cleanupAfter_ok le_rfl
    exact ⟨c, _, hc, restrict_eq_ok hf.shaped (hf.keep.trans hf.rowCount.symm),
      selected_basics hf.shaped hf.basics⟩

/-! ## Runs -/

/-- The vectors still fit together after any number of turns. -/
theorem Reaches.shaped {n : Nat} {t : State Rat} (r : Reaches n s t) (h : s.Shaped) :
    t.Shaped := by
  induction n generalizing s with
  | zero => exact reaches_zero.mp r ▸ h
  | succ n ih =>
    obtain ⟨u, events, ha, hu⟩ := reaches_succ.mp r
    obtain ⟨turn, ht, hnext⟩ := h.advance_ok
    exact ih hu (hnext u events (Except.ok.inj (ht.symm.trans ha))).1

/-- The state that a run ends in. -/
def Run.last : Run Rat → State Rat
  | .finished _ last _ => last
  | .cut last _ => last

@[simp]
theorem Run.last_after (r : Run Rat) (events : List Event) : (r.after events).last = r.last := by
  cases r <;> rfl

theorem Shaped.run_ok (h : s.Shaped) (limit : Nat) :
    ∃ r, s.run limit = .ok r ∧ r.last.Shaped ∧ r.last.variableCount = s.variableCount := by
  induction limit generalizing s with
  | zero => exact ⟨_, rfl, h, rfl⟩
  | succ limit ih =>
    obtain ⟨turn, ht, hnext⟩ := h.advance_ok
    rw [run, bind_eq ht]
    cases turn with
    | stopped status event => exact ⟨_, rfl, h, rfl⟩
    | moved t events =>
      obtain ⟨hshaped, hcount⟩ := hnext t events rfl
      obtain ⟨r, hr, hlast, hvariables⟩ := ih hshaped
      dsimp only
      rw [bind_eq hr]
      exact ⟨_, rfl, by rwa [Run.last_after], by rw [Run.last_after, hvariables, hcount]⟩

end State

/-! ## Programs -/

open State

/-- Whatever the rows of the program are, the engine runs on it as long as it likes: no turn goes
wrong, and a run that ends has a value for each variable. -/
structure RunsSafely (p : Program Rat) : Prop where
  starts : ∃ s, State.start p = .ok s
  turns : ∀ s t n, State.start p = .ok s → Reaches n s t → t.SafeTurn
  returns : ∀ limit, ∃ r, runCanonical limit p = .ok r
  length : ∀ limit o, solveCanonical limit p = .ok o → o.values.length = p.variableCount

theorem runsSafely {p : Program Rat} (hp : p.Stored) : RunsSafely p := by
  have hrun : ∀ limit, ∃ r, runCanonical limit p = .ok r ∧ r.last.Shaped ∧
      r.last.variableCount = p.variableCount := by
    intro limit
    obtain ⟨r, hr, hshaped, hcount⟩ := (initial_shaped p).run_ok limit
    refine ⟨r.after [.phaseOne p.variableCount p.rowCount], ?_, ?_⟩
    · rw [runCanonical, bind_eq (start_eq hp), bind_eq hr]
      rfl
    · simpa [hshaped] using hcount
  refine ⟨⟨_, start_eq hp⟩, ?_, fun limit => (hrun limit).imp fun _ => And.left, ?_⟩
  · intro s t n hs r
    obtain rfl := Except.ok.inj ((start_eq hp).symm.trans hs)
    exact (r.shaped (initial_shaped p)).safeTurn
  · intro limit o ho
    obtain ⟨r, hr, hshaped, hcount⟩ := hrun limit
    rw [solveCanonical, hr] at ho
    cases r with
    | cut => cases ho
    | finished status last events =>
      cases ho
      rw [List.length_take, ← hcount]
      exact Nat.min_eq_left hshaped.values

theorem RunsSafely.not_faulted {p : Program Rat} (h : RunsSafely p) (limit : Nat) (f : Fault) :
    solveCanonical limit p ≠ .error (.faulted f) := by
  intro hf
  obtain ⟨r, hr⟩ := h.returns limit
  rw [solveCanonical, hr] at hf
  cases r <;> cases hf

end LinearProgramming.Simplex

namespace LinearProgramming

/-! ## The whole way -/

theorem recoverAll_ok {p : Program Rat} (hp : p.Stored) {limit : Nat}
    {o : Simplex.Outcome Rat}
    (ho : Simplex.solveCanonical limit p.canonicalForm.program = .ok o) :
    ∃ xs, recoverAll p.canonicalForm.recoveries o.values = .ok xs ∧
      xs.length = p.variableCount := by
  have hl := (Simplex.runsSafely (Program.canonicalForm_stored hp)).length limit o ho
  refine ⟨_, Program.recoverAll_eq_ok hp ?_, by rw [List.length_map, List.length_range]⟩
  rw [hl, Program.canonicalForm_variableCount]
  exact Nat.le_add_right _ _

theorem solveInternal_not_faulted {p : Program Rat} (hp : p.Stored) (limit : Nat) (f : Fault) :
    Backend.solveInternal limit p ≠ .error (.faulted f) := by
  intro hf
  unfold Backend.solveInternal at hf
  dsimp only at hf
  cases ho : Simplex.solveCanonical limit p.canonicalForm.program with
  | error failure =>
    rw [ho] at hf
    cases hf
    exact (Simplex.runsSafely (Program.canonicalForm_stored hp)).not_faulted limit f ho
  | ok o =>
    obtain ⟨xs, hxs, -⟩ := recoverAll_ok hp ho
    rw [bind_eq ho] at hf
    split at hf
    · rw [hxs] at hf
      cases hf
    · cases hf

/-- The models that can be built: by commands from an empty one, and around the canonical form of
the program of another one. -/
inductive Model.Built (e : Engines) : Model Rat → Prop where
  | new (sense : Sense) : Built e (.new sense)
  | perform {m : Model Rat} (c : Command Rat) : Built e m → Built e (m.perform e c).1
  | canonical {m : Model Rat} : Built e m → Built e (.ofProgram m.program.canonicalForm.program)

theorem Model.Reachable.built {e : Engines} {m : Model Rat} (h : Reachable e m) : Built e m := by
  induction h with
  | new sense => exact .new sense
  | perform c _ ih => exact ih.perform c

theorem Model.Built.stored {e : Engines} {m : Model Rat} (h : m.Built e) : m.program.Stored := by
  induction h with
  | new sense => exact empty_holds (P := Column.Within) sense
  | perform c _ ih => exact perform_holds Column.within_lasting e ih c
  | canonical _ ih => exact Program.canonicalForm_stored ih

/-- Canonical form, engine and recovery go wrong on no model that can be built. The engine does not
on the program itself either, canonical or not. -/
theorem solve_path_safe {e : Engines} {m : Model Rat} (h : m.Built e) :
    m.program.canonicalFormChecked = .ok m.program.canonicalForm ∧
    Simplex.RunsSafely m.program ∧
    Simplex.RunsSafely m.program.canonicalForm.program ∧
    (∀ limit o, Simplex.solveCanonical limit m.program.canonicalForm.program = .ok o →
      ∃ xs, recoverAll m.program.canonicalForm.recoveries o.values = .ok xs ∧
        xs.length = m.program.variableCount) ∧
    ∀ limit f, Backend.solveInternal limit m.program ≠ .error (.faulted f) := by
  have hp := h.stored
  exact ⟨Program.canonicalFormChecked_eq_ok hp, Simplex.runsSafely hp,
    Simplex.runsSafely (Program.canonicalForm_stored hp), fun limit o => recoverAll_ok hp,
    fun limit f => solveInternal_not_faulted hp limit f⟩

/-- One nonnegative variable, the opposite of which is to be -1 and 1. -/
def backwards : Program Rat where
  sense := .minimize
  columns := [⟨.nonnegative, 0, [(0, -1), (1, -1)]⟩]
  rows := [⟨-1, -1⟩, ⟨1, 1⟩]

/-- The artificial variables add up to zero without being zero, so the engine takes the first out of
the basis, drops the second row, and says that 1 is optimal. -/
theorem backwards_safe : backwards.isCanonical = false ∧
    Simplex.solveCanonical 2 backwards = .ok ⟨.optimal, [1],
      [.phaseOne 1 2, .artificialOut 0 0, .redundant 1, .phaseTwo 1, .optimal 0]⟩ ∧
    ∀ e : Engines, (Model.ofProgram backwards).Built e ∧ Simplex.RunsSafely backwards := by
  refine ⟨by decide, by decide +kernel, fun e => ?_⟩
  have hb : Model.Reachable e (.ofProgram backwards) :=
    .perform (.setCoefficient 1 0 (-1 : Rat)) <| .perform (.setCoefficient 0 0 (-1 : Rat)) <|
      .perform (.addRow ⟨(1 : Rat), 1⟩) <| .perform (.addRow ⟨(-1 : Rat), -1⟩) <|
        .perform (.addVariables 1 (.nonnegative : Bounds Rat)) (.new .minimize)
  exact ⟨hb.built, (solve_path_safe hb.built).2.1⟩

end LinearProgramming
