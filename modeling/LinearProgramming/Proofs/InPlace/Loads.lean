import LinearProgramming.Proofs.InPlace.Writes

/-!
# Loops of writes

A program in matrix form is loaded in three loops, over its columns, its rows and its cells.

* `Edit.run_forM`: a loop of which each turn does to the vectors what a step does to the program;
* `Edit.forM_columns_run`, `Edit.forM_rows_run`, `Edit.forM_cells_run`: the three loops.
-/

namespace LinearProgramming.Edit

variable {α β : Type}

/-- A loop of which each turn does to the vectors what a step does to the program. -/
theorem run_forM {f : β → Edit α Unit} {g : Program α → β → Program α} {I : Program α → Prop}
    {m : Model α} {xs : List β} (hI : I m.program)
    (h : ∀ q, I q → ∀ x ∈ xs, I (g q x) ∧
      (f x).run (m.withProgram q).store = .ok () (m.withProgram (g q x)).store) :
    (xs.forM f).run m.store = .ok () (m.withProgram (xs.foldl g m.program)).store := by
  induction xs generalizing m with
  | nil => rfl
  | cons x rest ih =>
    obtain ⟨hx, hrun⟩ := h m.program hI x List.mem_cons_self
    have hrest := ih (m := m.withProgram (g m.program x)) hx
      fun q hq y hy => h q hq y (List.mem_cons_of_mem x hy)
    exact (run_bind hrun fun _ => rest.forM f).trans hrest

theorem foldl_columns (f : β → Column α) (xs : List β) (p : Program α) :
    xs.foldl (fun q x => q.pushColumn (f x)) p = { p with columns := p.columns ++ xs.map f } := by
  induction xs generalizing p with
  | nil => simp
  | cons x rest ih =>
    rw [List.foldl_cons, ih]
    simp [Program.pushColumn]

theorem foldl_rows (f : β → Bounds α) (xs : List β) (p : Program α) :
    xs.foldl (fun q x => q.pushRow (f x)) p = { p with rows := p.rows ++ xs.map f } := by
  induction xs generalizing p with
  | nil => simp
  | cons x rest ih =>
    rw [List.foldl_cons, ih]
    simp [Program.pushRow]

/-- The last column is written over. -/
theorem setColumn_last (m : Model α) (c d : Column α) :
    (m.withProgram (m.program.pushColumn c)).setColumn m.program.variableCount d =
      m.withProgram (m.program.pushColumn d) := by
  have hset : (m.program.columns ++ [c]).set m.program.variableCount d =
      m.program.columns ++ [d] := by
    rw [Program.variableCount, List.set_append_right _ _ le_rfl, Nat.sub_self]
    rfl
  simp only [Model.setColumn, Model.withProgram, Program.pushColumn, hset]

theorem forM_rows_run (m : Model α) (f : β → Bounds α) (xs : List β) :
    (xs.forM fun x => pushRow (f x)).run m.store =
      .ok () (m.withProgram { m.program with rows := m.program.rows ++ xs.map f }).store := by
  rw [← foldl_rows]
  exact run_forM (I := fun _ => True) trivial fun q _ x _ =>
    ⟨trivial, pushRow_run (m.withProgram q) (f x)⟩

variable [Scalar α] {m : Model α} {v : Nat}

theorem makeColumn_run (m : Model α) (b : Bounds α) (cost : α) :
    (makeVariable b >>= fun v => updateCost v fun _ => cost).run m.store =
      .ok () (m.withProgram (m.program.pushColumn ⟨b, cost, []⟩)).store := by
  have hnew : (m.program.columns ++ [Column.new b])[m.program.variableCount]? =
      some (.new b) := List.getElem?_concat_length
  rw [← setColumn_last m (.new b)]
  refine (run_bind (makeVariable_run m b) _).trans ?_
  exact updateCost_run (m := m.withProgram (m.program.pushColumn (.new b))) hnew fun _ => cost

/-- Writing the next column over one is adding to its coefficient in the program. -/
theorem accumulate_eq {q : Program α} {c : Column α} (hc : q.columns[v]? = some c) (m : Model α)
    (r : Nat) (x : α) :
    (m.withProgram q).setColumn v (c.add r x) = m.withProgram (q.accumulate r v x) := by
  obtain ⟨hv, rfl⟩ := List.getElem?_eq_some_iff.mp hc
  have hmodify : q.columns.modify v (Column.add r x) =
      q.columns.set v (q.columns[v].add r x) := by
    apply List.ext_getElem
    · simp
    · intro w h₁ h₂
      rw [List.getElem_modify, List.getElem_set]
      split
      · next hw => subst hw; rfl
      · rfl
  rw [Program.accumulate, hmodify]
  rfl

theorem forM_columns_run (m : Model α) (b : Bounds α) (costs : List α) :
    (costs.forM fun cost => makeVariable b >>= fun v => updateCost v fun _ => cost).run m.store =
      .ok () (m.withProgram { m.program with
        columns := m.program.columns ++ costs.map fun cost => ⟨b, cost, []⟩ }).store := by
  rw [← foldl_columns]
  exact run_forM (I := fun _ => True) trivial fun q _ cost _ =>
    ⟨trivial, makeColumn_run (m.withProgram q) b cost⟩

/-- So many rows and columns, and cells in order in the rows. -/
def Spans (rows columns : Nat) (q : Program α) : Prop :=
  q.Stored ∧ q.rows.length = rows ∧ q.columns.length = columns

theorem forM_cells_run {rows columns : Nat} {cells : List (Nat × Nat × α)}
    (hm : Spans rows columns m.program) (h : ∀ t ∈ cells, t.1 < rows ∧ t.2.1 < columns) :
    (cells.forM fun t => accumulate t.1 t.2.1 t.2.2).run m.store =
      .ok () (m.withProgram
        (cells.foldl (fun p t => p.accumulate t.1 t.2.1 t.2.2) m.program)).store := by
  refine run_forM hm ?_
  rintro q ⟨hq, rfl, rfl⟩ ⟨r, v, x⟩ ht
  obtain ⟨hr, hv⟩ := h _ ht
  have hc := List.getElem?_eq_getElem hv
  refine ⟨⟨Program.Holds.accumulate Column.within_lasting hq hr v x, rfl,
    List.length_modify ..⟩, ?_⟩
  rw [← accumulate_eq hc]
  exact accumulate_run (m := m.withProgram q) hq hc r x

theorem frame_spans (sense : Sense) (constants costs : List α) (relations : List Relation)
    (nonnegative : Bool) : Spans constants.length costs.length
      (Program.frame sense constants costs relations nonnegative) :=
  ⟨Program.frame_holds Column.within_lasting sense constants costs relations nonnegative,
    Program.frame_rows_length .., List.length_map _⟩

end LinearProgramming.Edit
