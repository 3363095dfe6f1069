import LinearProgramming.Proofs.FreeRows

/-!
# Results of solves

A model keeps the result of its last solve while its program is edited, so that the values it holds
may be those of a smaller program.

* `Backend.solve_ok`: a backend reports one value for each variable at an optimum, and none
  otherwise, if the conic method does.
* `Model.perform_performed`: a command solves the program, puts another one in its place, or keeps
  the result.
* `Model.after_held`: values there are, the last solve has left as they are, and the program has not
  been replaced since.
* `Model.result_lifecycle`: all together, with what a solve keeps and what it forgets.
-/

namespace LinearProgramming

variable {α : Type} [Scalar α]

/-! ## Backends -/

/-- The conic method says one value for each variable, if it says any. -/
def Engines.OneValueEach (e : Engines) : Prop :=
  ∀ f q xs, e.conic f q = .solved xs → xs.length = q.costs.length

/-- There are values exactly at an optimum, and then one for each of so many variables. -/
structure Solution.Covers (count : Nat) (s : Solution α) : Prop where
  isSome_iff : s.values.isSome = true ↔ s.status = .optimal
  length_eq : ∀ xs, s.values = some xs → xs.length = count

omit [Scalar α] in
theorem Solution.covers_some {count : Nat} {xs : List α} (h : xs.length = count) :
    Covers count ⟨.optimal, some xs⟩ where
  isSome_iff := iff_of_true rfl rfl
  length_eq _ hys := Option.some.inj hys ▸ h

omit [Scalar α] in
theorem Solution.covers_none {status : Status} (h : status ≠ .optimal) (count : Nat) :
    Covers (α := α) count ⟨status, none⟩ where
  isSome_iff := iff_of_false Bool.false_ne_true h
  length_eq _ hys := nomatch hys

/-- Replacing a variable adds one recovery, in all three ways. -/
@[simp]
theorem Substitution.length_recoveries_replace (s : Substitution α) (count : Nat) (c : Column α) :
    (s.replace count c).recoveries.length = s.recoveries.length + 1 := by
  unfold replace
  split
  · split <;> exact List.length_append
  · exact List.length_append

theorem Substitution.length_recoveries_foldl (count : Nat) (columns : List (Column α))
    (s : Substitution α) :
    (columns.foldl (replace count) s).recoveries.length = s.recoveries.length + columns.length := by
  induction columns generalizing s with
  | nil => rfl
  | cons c rest ih =>
    simp [ih]
    omega

@[simp]
theorem Program.length_recoveries (p : Program α) :
    p.canonicalForm.recoveries.length = p.variableCount :=
  (Substitution.length_recoveries_foldl ..).trans (Nat.zero_add _)

theorem recoverAll_length {ts : List (Recovery α)} {values xs : List α}
    (h : recoverAll ts values = .ok xs) : xs.length = ts.length :=
  (length_mapM_ok h).trans List.length_zipIdx

@[simp]
theorem RoundedProgram.length_minimizedCosts (p : RoundedProgram) :
    p.minimizedCosts.length = p.variableCount := by
  unfold minimizedCosts
  cases p.sense with
  | minimize => rfl
  | maximize => exact List.length_map _

@[simp]
theorem Program.toDouble_variableCount (p : Program α) :
    p.toDouble.variableCount = p.variableCount := by
  simp [RoundedProgram.variableCount, toDouble, costs, variableCount]

namespace Backend

variable {p : Program α} {s : Solution α} {events : List Event}

theorem solveInternal_ok {limit : Nat} (h : solveInternal limit p = .ok (s, events)) :
    s.Covers p.variableCount := by
  obtain ⟨outcome, -, h⟩ := bind_ok h
  dsimp only at h
  split at h
  · split at h
    · next xs hxs =>
      cases h
      exact Solution.covers_some ((recoverAll_length hxs).trans p.length_recoveries)
    · cases h
  · next hstatus =>
    cases h
    exact Solution.covers_none hstatus _

theorem solveConic_covers {e : Engines} (he : e.OneValueEach) (p : Program α) :
    (solveConic e.conic p).Covers p.variableCount := by
  have hcount := p.toDouble_variableCount
  unfold solveConic
  dsimp only
  split
  · next hzero =>
    split
    · exact Solution.covers_some (by rw [← hcount, hzero]; rfl)
    · exact Solution.covers_none Status.noConfusion _
  · split
    · next xs hxs =>
      refine Solution.covers_some ?_
      rw [List.length_map, he _ _ xs hxs, ← hcount]
      exact p.toDouble.length_minimizedCosts
    all_goals exact Solution.covers_none Status.noConfusion _

theorem solve_ok {e : Engines} (he : e.OneValueEach) {b : Backend} {m : Method}
    (h : b.solve e p m = .ok (s, events)) : s.Covers p.variableCount := by
  unfold solve at h
  split at h
  · cases b with
    | internal => exact solveInternal_ok h
    | conic =>
      cases h
      exact solveConic_covers he p
  · cases h

end Backend

/-! ## Commands -/

namespace Model

variable {e : Engines} {m n : Model α} {c : Command α}

theorem result_ok (he : e.OneValueEach) {config : Config} {p : Program α} {s : Solution α}
    (h : (result e config p).1 = .ok s) : s.Covers p.variableCount := by
  unfold result at h
  split at h
  · cases h
  · dsimp only at h
    split at h
    · cases h
    · next hs =>
      cases h
      exact Backend.solve_ok he hs

/-- A model that has just been solved has a value for each variable at an optimum, and none
otherwise. -/
theorem solve_covers (he : e.OneValueEach) (config : Config) (m : Model α) :
    ((m.solve e config).1.solution.isSome = true ↔ (m.solve e config).1.status = some .optimal) ∧
      ∀ xs, (m.solve e config).1.solution = some xs → xs.length = m.program.variableCount := by
  unfold solve
  dsimp only
  split
  · exact ⟨iff_of_false Bool.false_ne_true nofun, fun xs hxs => nomatch hxs⟩
  · next s hs =>
    obtain ⟨hsome, hlength⟩ := result_ok he hs
    by_cases hstatus : s.status = .optimal
    · simp only [hstatus, beq_self_eq_true, if_true]
      exact ⟨iff_of_true (hsome.mpr hstatus) trivial, hlength⟩
    · have hbeq : (s.status == .optimal) = false := beq_eq_false_iff_ne.mpr hstatus
      simp only [hbeq, Bool.false_eq_true, if_false, Option.some.injEq]
      exact ⟨iff_of_false Bool.false_ne_true hstatus, fun xs hxs => nomatch hxs⟩

/-- A solve without a result leaves none. -/
theorem solve_failed {config : Config} {f : Failure} (h : (m.solve e config).2.1 = .error f) :
    (m.solve e config).1 = ofProgram m.program := by
  unfold solve at h ⊢
  dsimp only at h ⊢
  split at h
  · rfl
  · cases h

/-- What a command does to a model: it solves the program, puts another one in its place, or keeps
the result and takes no variable away. -/
inductive Performed (e : Engines) (m : Model α) : Command α → Model α → Prop where
  | solved (config : Config) : Performed e m (.solve config) (m.solve e config).1
  | replaced {c : Command α} (hc : c.Replaces) (q : Program α) : Performed e m c (ofProgram q)
  | kept {c : Command α} (hs : ¬ c.Solves) (hr : ¬ c.Replaces) {q : Program α}
      (hq : m.program.variableCount ≤ q.variableCount) : Performed e m c { m with program := q }

theorem edit_performed (hs : ¬ c.Solves) (hr : ¬ c.Replaces)
    {f : Program α → Except Rejection (Program α)}
    (hf : ∀ q, f m.program = .ok q → m.program.variableCount ≤ q.variableCount)
    (h : m.edit f = .ok n) : Performed e m c n := by
  obtain ⟨q, hq, h⟩ := bind_ok h
  cases h
  exact .kept hs hr (hf q hq)

theorem load_performed {f : Sense → Except Rejection (Program α)} {fits brings : Prop}
    (hf : ∀ s, Program.Loads fits brings (f s)) (hc : fits → c.Replaces) (h : m.load f = .ok n) :
    Performed e m c n := by
  have hfits := (load_hasFreeRow hf h).1
  obtain ⟨q, -, h⟩ := bind_ok h
  cases h
  exact .replaced (hc hfits) q

omit [Scalar α] in
theorem updateColumn_variableCount {p q : Program α} {v : Nat} {f : Column α → Column α}
    (h : p.updateColumn v f = .ok q) : p.variableCount ≤ q.variableCount := by
  obtain ⟨c, -, rfl⟩ := Program.updateColumn_ok h
  exact Nat.le_of_eq List.length_set.symm

theorem apply_performed (h : m.apply e c = .ok n) : Performed e m c n := by
  cases c with
  | setSense s =>
    cases h
    exact .kept id id le_rfl
  | addVariables k b =>
    cases h
    exact .kept id id (by simp [Program.variableCount, Program.addVariables])
  | addRow b =>
    refine edit_performed (f := fun p => p.addRow b) id id (fun q hq => ?_) h
    unfold Program.addRow at hq
    split at hq
    · cases hq
    · cases hq
      exact le_rfl
  | setCost v x =>
    have hf : ∀ q, m.program.setCost v x = .ok q → _ := fun _ => updateColumn_variableCount
    exact edit_performed (f := fun p => p.setCost v x) id id hf h
  | addCost v x =>
    have hf : ∀ q, m.program.addCost v x = .ok q → _ := fun _ => updateColumn_variableCount
    exact edit_performed (f := fun p => p.addCost v x) id id hf h
  | setCoefficient r v x =>
    exact edit_performed (f := fun p => p.setCoefficient r v x) id id
      (fun q hq => updateColumn_variableCount (Program.updateCell_ok hq).2) h
  | addCoefficient r v x =>
    exact edit_performed (f := fun p => p.addCoefficient r v x) id id
      (fun q hq => updateColumn_variableCount (Program.updateCell_ok hq).2) h
  | loadDense a constants costs relations nonnegative =>
    exact load_performed
      (fun s => Program.ofDense_loads s a constants costs relations nonnegative) id h
  | loadTriplets a constants costs relations nonnegative =>
    exact load_performed
      (fun s => Program.ofTriplets_loads s a constants costs relations nonnegative) id h
  | clear =>
    cases h
    exact .replaced (c := .clear) trivial (.empty m.program.sense)
  | solve config =>
    cases h
    exact .solved config

theorem perform_performed (e : Engines) (m : Model α) (c : Command α) :
    Performed e m c (m.perform e c).1 := by
  unfold perform
  cases h : m.apply e c with
  | ok n => exact apply_performed h
  | error r =>
    have hs : ¬ c.Solves := by
      cases c with
      | solve config => cases h
      | _ => exact id
    exact .kept hs (not_replaces h) le_rfl

theorem Performed.keeps (h : Performed e m c n) (hs : ¬ c.Solves) (hr : ¬ c.Replaces) :
    n.status = m.status ∧ n.solution = m.solution := by
  cases h with
  | solved config => exact absurd trivial hs
  | replaced hc q => exact absurd hc hr
  | kept _ _ hq => exact ⟨rfl, rfl⟩

/-! ## Runs -/

/-- The last solve among commands leaves these values, one for each variable that there was then,
and the program has not been replaced since. -/
def OfLastSolve (e : Engines) (p : Program α) (cs : List (Command α)) (xs : List α) : Prop :=
  ∃ before config later, cs = before ++ .solve config :: later ∧
    (∀ d ∈ later, ¬ d.Solves ∧ ¬ d.Replaces) ∧
    (((ofProgram p).after e before).solve e config).1.solution = some xs ∧
    xs.length = ((ofProgram p).after e before).program.variableCount

/-- The result of a model fits to the commands that it has been through. -/
structure Held (e : Engines) (p : Program α) (cs : List (Command α)) (m : Model α) : Prop where
  isSome_iff : m.solution.isSome = true ↔ m.status = some .optimal
  length_le : ∀ xs, m.solution = some xs → xs.length ≤ m.program.variableCount
  ofLastSolve : ∀ xs, m.solution = some xs → OfLastSolve e p cs xs

theorem held_ofProgram (e : Engines) (p : Program α) (cs : List (Command α)) (q : Program α) :
    Held e p cs (ofProgram q) where
  isSome_iff := iff_of_false Bool.false_ne_true nofun
  length_le _ hxs := nomatch hxs
  ofLastSolve _ hxs := nomatch hxs

theorem OfLastSolve.concat {p : Program α} {cs : List (Command α)} {xs : List α}
    (h : OfLastSolve e p cs xs) (hs : ¬ c.Solves) (hr : ¬ c.Replaces) :
    OfLastSolve e p (cs ++ [c]) xs := by
  obtain ⟨before, config, later, rfl, hlater, hsolved⟩ := h
  refine ⟨before, config, later ++ [c], by simp, fun d hd => ?_, hsolved⟩
  rcases List.mem_append.mp hd with hd | hd
  · exact hlater d hd
  · rw [List.mem_singleton.mp hd]
    exact ⟨hs, hr⟩

/-- One more command keeps the result, or it is the one that the result is from. -/
theorem Held.perform (he : e.OneValueEach) {p : Program α} {cs : List (Command α)}
    (h : Held e p cs ((ofProgram p).after e cs)) (c : Command α) :
    Held e p (cs ++ [c]) (((ofProgram p).after e cs).perform e c).1 := by
  have hdone := perform_performed e ((ofProgram p).after e cs) c
  generalize (((ofProgram p).after e cs).perform e c).1 = n at hdone ⊢
  cases hdone with
  | solved config =>
    obtain ⟨hsome, hlength⟩ := solve_covers he config ((ofProgram p).after e cs)
    refine ⟨hsome, fun xs hxs => ?_, fun xs hxs => ?_⟩
    · rw [solve_program, hlength xs hxs]
    · exact ⟨cs, config, [], rfl, nofun, hxs, hlength xs hxs⟩
  | replaced hc q => exact held_ofProgram e p _ q
  | kept hs hr hq =>
    exact ⟨h.isSome_iff, fun xs hxs => (h.length_le xs hxs).trans hq,
      fun xs hxs => (h.ofLastSolve xs hxs).concat hs hr⟩

theorem after_held (he : e.OneValueEach) (p : Program α) (cs : List (Command α)) :
    Held e p cs ((ofProgram p).after e cs) := by
  induction cs using List.reverseRecOn with
  | nil => exact held_ofProgram e p [] p
  | append_singleton cs c ih =>
    rw [after_concat]
    exact ih.perform he c

/-! ## Values of variables -/

omit [Scalar α] in
theorem valueOf_unknown {v : Nat} (h : m.program.variableCount ≤ v) :
    m.valueOf v = .error (.unknownVariable v) := by
  have hcolumn : m.program.columns[v]? = none := List.getElem?_eq_none h
  rw [valueOf, Program.column, hcolumn]
  rfl

omit [Scalar α] in
theorem valueOf_known {v : Nat} (h : v < m.program.variableCount) :
    m.valueOf v = match m.solution.bind (·[v]?) with
      | some x => .ok x
      | none => .error .notSolved := by
  have hcolumn : m.program.columns[v]? = some m.program.columns[v] := List.getElem?_eq_getElem h
  rw [valueOf, Program.column, hcolumn, values]
  cases m.solution with
  | none => rfl
  | some xs =>
    show (match xs[v]? with | some x => .ok x | none => .error .notSolved : Except Rejection α) = _
    rw [Option.bind_some]

/-- There is a result exactly at an optimum. Its values are those that the last solve has left, one
for each variable that there was then; only another solve or another program takes them away. A
solve leaves the program alone, starts without a result, and has none to show if it fails. -/
theorem result_lifecycle {e : Engines} (he : e.OneValueEach) :
    (∀ (p : Program α) (cs : List (Command α)), Held e p cs ((ofProgram p).after e cs)) ∧
    (∀ (m : Model α) (c : Command α), ¬ c.Solves → ¬ c.Replaces →
      (m.perform e c).1.status = m.status ∧ (m.perform e c).1.solution = m.solution) ∧
    (∀ (m : Model α) (config : Config),
      (m.perform e (.solve config)).1.program = m.program ∧
      (∀ f, (m.solve e config).2.1 = .error f →
        (m.solve e config).1.status = none ∧ (m.solve e config).1.solution = none) ∧
      ∀ n : Model α, n.program = m.program → n.solve e config = m.solve e config) ∧
    ∀ (m : Model α) (v : Nat),
      (m.program.variableCount ≤ v → m.valueOf v = .error (.unknownVariable v)) ∧
      (v < m.program.variableCount → m.valueOf v = match m.solution.bind (·[v]?) with
        | some x => .ok x
        | none => .error .notSolved) := by
  refine ⟨after_held he, ?_, ?_, fun m v => ⟨valueOf_unknown, valueOf_known⟩⟩
  · exact fun m c hs hr => (perform_performed e m c).keeps hs hr
  · intro m config
    refine ⟨solve_program e config m, fun f hf => ?_, fun n hn => by rw [solve, solve, hn]⟩
    rw [solve_failed hf]
    exact ⟨rfl, rfl⟩

/-- Engines whose conic method answers every program with the point zero. -/
def zeroEngines : Engines := ⟨0, fun _ q => .solved (q.costs.map fun _ => .finite false 0 0)⟩

/-- Minimizes one variable, and adds another one afterwards. -/
def latecomer : List (Command Rat) :=
  [.addVariables 1 .nonnegative, .setCost 0 1, .solve (.ofSolver .clarabel),
    .addVariables 1 .nonnegative]

/-- The variable that came after the solve has no value. A new cost leaves the value of the other
one as it is, and a solve by a method that the solver does not have takes it away. -/
theorem latecomer_without_value : zeroEngines.OneValueEach ∧ ∃ m : Model Rat,
    m = (new .minimize).after zeroEngines latecomer ∧
    m.solution = some [0] ∧ m.status = some .optimal ∧
    OfLastSolve zeroEngines (.empty .minimize) latecomer [0] ∧
    m.valueOf 0 = .ok 0 ∧ m.valueOf 1 = .error .notSolved ∧
    m.valueOf 2 = .error (.unknownVariable 2) ∧
    (m.perform zeroEngines (.setCost 1 5)).1.solution = some [0] ∧
    (m.solve zeroEngines { solver := .internal, method := .interior }).1.solution = none := by
  have he : zeroEngines.OneValueEach := by
    intro f q xs h
    cases h
    exact List.length_map _
  obtain ⟨hheld, hkeeps, hsolve, hvalue⟩ := result_lifecycle (α := Rat) he
  have held := hheld (.empty .minimize) latecomer
  change Held _ _ _ ((new .minimize).after zeroEngines latecomer) at held
  have hsolution : ((new .minimize).after zeroEngines latecomer).solution = some [0] := by decide
  have hcount : ((new .minimize).after zeroEngines latecomer).program.variableCount = 2 := by decide
  generalize (new .minimize).after zeroEngines latecomer = m at held hsolution hcount ⊢
  refine ⟨he, m, rfl, hsolution, ?status, held.ofLastSolve [0] hsolution, ?first, ?second, ?third,
    ?kept, ?gone⟩
  case status => exact held.isSome_iff.mp (by rw [hsolution]; rfl)
  case first =>
    rw [(hvalue m 0).2 (by rw [hcount]; decide), hsolution]
    rfl
  case second =>
    rw [(hvalue m 1).2 (by rw [hcount]; decide), hsolution]
    rfl
  case third => exact (hvalue m 2).1 (by rw [hcount])
  case kept => rw [(hkeeps m (.setCost 1 5) id id).2, hsolution]
  case gone => exact ((hsolve m _).2.1 (.rejected (.unsupportedMethod .internal .interior)) rfl).2

end Model

end LinearProgramming
