import LinearProgramming.Proofs.InPlace.Loads

/-!
# Commands in place

* `Edit.Amounts`: writes that come to the next model, or are refused before the first of them; one
  lemma for each kind of command.
* `Edit.solve_run`: a solve forgets the last result, also if it fails.
* `Model.inPlace_eq`: in place, a command comes to what `Model.perform` does, and reports the same.
* `Model.perform_of_failure`: what a command leaves behind that fails.
-/

namespace LinearProgramming

namespace Edit

variable {α : Type} {m : Model α} {v r : Nat}

/-! ## Edits -/

/-- What writes are to come to: the next model, or the same one and the reason of the refusal. -/
def Amounts (x : Edit α Unit) (m : Model α) : Except Rejection (Model α) → Prop
  | .ok n => x.run m.store = .ok () n.store
  | .error r => x.run m.store = .error (.rejected r) m.store

theorem amounts_edit {x : Edit α Unit} {f : Program α → Except Rejection (Program α)}
    (h : Amounts x m ((f m.program).map m.withProgram)) : Amounts x m (m.edit f) := by
  unfold Model.edit
  cases hq : f m.program <;>
  · rw [hq] at h
    exact h

theorem amounts_needVariable {x : Edit α Unit} {f : Column α → Column α}
    (h : ∀ c, m.program.columns[v]? = some c → x.run m.store = .ok () (m.setColumn v (f c)).store) :
    Amounts (do needVariable v; x) m ((m.program.updateColumn v f).map m.withProgram) := by
  unfold Program.updateColumn Program.column
  cases hc : m.program.columns[v]? with
  | none =>
    have hv := List.getElem?_eq_none_iff.mp hc
    exact run_bind_error ((needVariable_run m v).trans (if_neg (Nat.not_lt.mpr hv))) fun _ => x
  | some c =>
    have hv := (List.getElem?_eq_some_iff.mp hc).1
    exact (run_bind ((needVariable_run m v).trans (if_pos hv)) fun _ => x).trans (h c hc)

theorem amounts_needRow {x : Edit α Unit} {result : Except Rejection (Program α)}
    (h : Amounts x m (result.map m.withProgram)) :
    Amounts (do needRow r; x) m ((m.program.row r >>= fun _ => result).map m.withProgram) := by
  unfold Program.row
  cases hb : m.program.rows[r]? with
  | none =>
    have hr := List.getElem?_eq_none_iff.mp hb
    exact run_bind_error ((needRow_run m r).trans (if_neg (Nat.not_lt.mpr hr))) fun _ => x
  | some b =>
    have hr := (List.getElem?_eq_some_iff.mp hb).1
    have hx := run_bind ((needRow_run m r).trans (if_pos hr)) fun _ => x
    cases result <;> exact hx.trans h

theorem amounts_setCost (m : Model α) (v : Nat) (x : α) :
    Amounts (setCost v x) m ((m.program.setCost v x).map m.withProgram) :=
  amounts_needVariable fun _ hc => updateCost_run hc _

variable [Scalar α]

theorem amounts_addCost (m : Model α) (v : Nat) (x : α) :
    Amounts (addCost v x) m ((m.program.addCost v x).map m.withProgram) :=
  amounts_needVariable fun _ hc => updateCost_run hc _

theorem amounts_setCoefficient (h : m.program.Stored) (r v : Nat) (x : α) :
    Amounts (setCoefficient r v x) m ((m.program.setCoefficient r v x).map m.withProgram) := by
  refine amounts_needRow (amounts_needVariable fun c hc => ?_)
  rw [← store_write_set h hc]
  cases Scalar.near x 0 <;> rfl

theorem amounts_addCoefficient (h : m.program.Stored) (r v : Nat) (x : α) :
    Amounts (addCoefficient r v x) m ((m.program.addCoefficient r v x).map m.withProgram) :=
  amounts_needRow (amounts_needVariable fun _ hc => accumulate_run h hc r x)

theorem amounts_makeRow (m : Model α) (b : Bounds α) :
    Amounts (makeRow b) m ((m.program.addRow b).map m.withProgram) := by
  unfold Program.addRow makeRow
  by_cases hb : b.kind = .free
  · obtain ⟨hbelow, habove⟩ := Bounds.kind_eq_free.mp hb
    simp only [hb, hbelow, habove]
    rfl
  · have hopen : (b.isUnboundedAbove && b.isUnboundedBelow) = false := by
      rw [Bool.and_comm, Bool.eq_false_iff, ne_eq, Bool.and_eq_true, ← Bounds.kind_eq_free]
      exact hb
    simp only [hb, hopen]
    exact pushRow_run m b

/-! ## Loads and solves -/

theorem amounts_load {rows columns : Nat} {cells : List (Nat × Nat × α)} (m : Model α)
    (h : ∀ t ∈ cells, t.1 < rows ∧ t.2.1 < columns) (constants costs : List α)
    (relations : List Relation) (nonnegative : Bool) :
    Amounts (load rows columns cells constants costs relations nonnegative) m
      (m.load fun sense => Program.checkShape rows columns constants costs >>= fun _ =>
        .ok (cells.foldl (fun p t => p.accumulate t.1 t.2.1 t.2.2)
          (Program.frame sense constants costs relations nonnegative))) := by
  unfold load Model.load Program.checkShape
  by_cases hfits : rows = constants.length ∧ columns = costs.length
  · rw [if_pos hfits]
    have hspans := frame_spans m.program.sense constants costs relations nonnegative
    rw [← hfits.1, ← hfits.2] at hspans
    have hcolumns := forM_columns_run (Model.new m.program.sense)
      (if nonnegative then .nonnegative else .free) costs
    exact (run_bind hcolumns _).trans <| (run_bind (forM_rows_run _ _ constants.zipIdx) _).trans <|
      forM_cells_run (m := Model.ofProgram _) hspans h
  · rw [if_neg hfits]
    rfl

theorem solve_run (e : Engines) (config : Config) {m : Model α} (h : m.program.Stored) :
    (solve e config).run m.store = match (m.solve e config).2.1 with
      | .ok _ => .ok () (m.solve e config).1.store
      | .error f => .error f (m.solve e config).1.store := by
  have hprogram : ({ m.store with status := none, solution := none } : Store α).program =
      m.program := Model.program_store h
  show (do
    let result ← demand id (Model.result e config
      ({ m.store with status := none, solution := none } : Store α).program).1
    modify fun s => { s with status := some result.status }
    if result.status = .optimal then modify fun s => { s with solution := result.values } :
      Edit α Unit).run { m.store with status := none, solution := none } = _
  rw [hprogram, Model.solve]
  dsimp only
  cases (Model.result e config m.program).1 with
  | error f => rfl
  | ok s =>
    show (if s.status = .optimal then _ else _ : Edit α Unit).run _ =
      .ok () (⟨m.program, some s.status, if s.status == .optimal then s.values else none⟩ :
        Model α).store
    by_cases hs : s.status = .optimal
    · rw [if_pos hs, if_pos (beq_iff_eq.mpr hs)]
      rfl
    · rw [if_neg hs, if_neg fun h => hs (beq_iff_eq.mp h)]
      rfl

end Edit

/-! ## All commands -/

namespace Model

variable {α : Type} [Scalar α]

/-- The failure that a command reports, if any. -/
def failure? (e : Engines) (m : Model α) : Command α → Option Failure
  | .solve config => match (m.solve e config).2.1 with
    | .ok _ => none
    | .error f => some f
  | c => (m.perform e c).2.map .rejected

/-- Writes that come to what is asked report the same. -/
theorem run_of_amounts {x : Edit α Unit} {m : Model α} {e : Engines} {c : Command α}
    (h : Edit.Amounts x m (m.apply e c)) : x.run m.store =
      match (m.perform e c).2.map Failure.rejected with
      | none => .ok () (m.perform e c).1.store
      | some f => .error f (m.perform e c).1.store := by
  unfold perform
  cases hn : m.apply e c with
  | ok n =>
    rw [hn] at h
    exact h
  | error r =>
    rw [hn] at h
    exact h

/-- The same for a command that changes the program and keeps the result. -/
theorem run_of_edit {x : Edit α Unit} {m : Model α} {e : Engines} {c : Command α}
    (f : Program α → Except Rejection (Program α)) (hc : m.apply e c = m.edit f)
    (h : Edit.Amounts x m ((f m.program).map m.withProgram)) : x.run m.store =
      match (m.perform e c).2.map Failure.rejected with
      | none => .ok () (m.perform e c).1.store
      | some f => .error f (m.perform e c).1.store :=
  run_of_amounts (hc ▸ Edit.amounts_edit h)

/-- In place, a command does what it does to the model, and reports the same. -/
theorem inPlace_eq (e : Engines) {m : Model α} (h : m.program.Stored) (c : Command α) :
    (c.inPlace e).run m.store = match m.failure? e c with
      | none => .ok () (m.perform e c).1.store
      | some f => .error f (m.perform e c).1.store := by
  cases c with
  | setSense s => rfl
  | addVariables n b => exact Edit.makeVariables_run m n b
  | addRow b => exact run_of_edit (·.addRow b) rfl (Edit.amounts_makeRow m b)
  | setCost v x => exact run_of_edit (·.setCost v x) rfl (Edit.amounts_setCost m v x)
  | addCost v x => exact run_of_edit (·.addCost v x) rfl (Edit.amounts_addCost m v x)
  | setCoefficient r v x =>
    exact run_of_edit (·.setCoefficient r v x) rfl (Edit.amounts_setCoefficient h r v x)
  | addCoefficient r v x =>
    exact run_of_edit (·.addCoefficient r v x) rfl (Edit.amounts_addCoefficient h r v x)
  | loadDense a constants costs relations nonnegative =>
    have hcells : ∀ t ∈ a.cells, t.1 < a.rows ∧ t.2.1 < a.columns := by
      intro t ht
      obtain ⟨u, hu, rfl⟩ := List.mem_map.mp ht
      exact DenseMatrix.mem_positions.mp hu
    have hload := Edit.amounts_load m hcells constants costs relations nonnegative
    simp only [DenseMatrix.cells, List.foldl_map] at hload
    exact run_of_amounts (c := .loadDense a constants costs relations nonnegative) hload
  | loadTriplets a constants costs relations nonnegative =>
    exact run_of_amounts (c := .loadTriplets a constants costs relations nonnegative)
      (Edit.amounts_load m a.inRange constants costs relations nonnegative)
  | clear => rfl
  | solve config =>
    refine (Edit.solve_run e config h).trans ?_
    simp only [failure?]
    cases (m.solve e config).2.1 <;> rfl

/-- Only a solve leaves something behind when it fails. -/
theorem perform_of_failure {e : Engines} {m : Model α} {c : Command α} {f : Failure}
    (h : m.failure? e c = some f) :
    (¬ c.Solves → (m.perform e c).1 = m) ∧
      (c.Solves → (m.perform e c).1 = ofProgram m.program) := by
  have hrefused (h : (m.perform e c).2.map Failure.rejected = some f) :
      (m.perform e c).1 = m := by
    unfold perform at h ⊢
    cases hn : m.apply e c with
    | error r => rfl
    | ok n =>
      rw [hn] at h
      cases h
  cases c with
  | solve config =>
    refine ⟨fun hs => absurd trivial hs, fun _ => solve_failed (f := f) ?_⟩
    unfold failure? at h
    dsimp only at h
    split at h
    · cases h
    · next hs =>
      cases h
      exact hs
  | _ => exact ⟨fun _ => hrefused h, False.elim⟩

end Model

end LinearProgramming
