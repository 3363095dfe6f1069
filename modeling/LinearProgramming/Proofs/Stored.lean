import LinearProgramming.Model
import LinearProgramming.Proofs.Points

/-!
# What commands store

* `Column.Lasting`: a property of columns that holds of empty ones and that nothing destroys;
* `Model.apply_holds`, `Model.Reachable.holds`: commands keep such a property of all columns;
* `Model.Reachable.stored`, `Model.Reachable.sparse`: whatever commands a model has been through,
  the cells that its program stores lie in its rows, in order, and none of them is near zero.
-/

namespace LinearProgramming

variable {α : Type}

/-! ## Columns -/

namespace Column

/-- The cells are in order, and lie in the first `m` rows. -/
def Within (m : Nat) (c : Column α) : Prop := c.entries.Ordered ∧ ∀ e ∈ c.entries, e.1 < m

variable [Scalar α]

/-- No cell is near zero. -/
def NonNear (c : Column α) : Prop := ∀ e ∈ c.entries, Scalar.near e.2 0 = false

/-- A property of the columns of a program with so many rows that empty columns have, and that
neither writing to the column nor a new row destroys. -/
structure Lasting (P : Nat → Column α → Prop) : Prop where
  empty : ∀ m b cost, P m ⟨b, cost, []⟩
  grow : ∀ {m c}, P m c → P (m + 1) c
  cost : ∀ {m c}, P m c → ∀ x, P m { c with cost := x }
  set : ∀ {m c r}, P m c → r < m → ∀ x, P m (c.set r x)

theorem Lasting.add {P : Nat → Column α → Prop} (hP : Lasting P) {m r : Nat} {c : Column α}
    (h : P m c) (hr : r < m) (x : α) : P m (c.add r x) := by
  unfold Column.add
  split
  · exact h
  · exact hP.set h hr _

theorem Within.set {m r : Nat} {c : Column α} (h : c.Within m) (hr : r < m) (value : α) :
    (c.set r value).Within m := by
  unfold Column.set
  by_cases hv : Scalar.near value 0 = true
  · rw [if_pos hv]
    exact ⟨Entries.ordered_erase r h.1, fun e he => h.2 e (List.mem_filter.mp he).1⟩
  · rw [if_neg hv]
    refine ⟨Entries.ordered_put r value h.1, ?_⟩
    intro e he
    rcases Entries.mem_put he with rfl | he
    · exact hr
    · exact h.2 e he

theorem NonNear.set {c : Column α} (h : c.NonNear) (r : Nat) (value : α) :
    (c.set r value).NonNear := by
  unfold Column.set
  intro e he
  by_cases hv : Scalar.near value 0 = true
  · simp only [hv, if_true] at he
    exact h e (List.mem_filter.mp he).1
  · simp only [hv] at he
    rcases Entries.mem_put he with rfl | he
    · simpa using hv
    · exact h e he

theorem within_lasting : Lasting (Within (α := α)) where
  empty _ _ _ := ⟨List.Pairwise.nil, fun e he => by cases he⟩
  grow h := ⟨h.1, fun e he => Nat.lt_succ_of_lt (h.2 e he)⟩
  cost h _ := h
  set h hr x := h.set hr x

theorem nonNear_lasting : Lasting fun (_ : Nat) (c : Column α) => c.NonNear where
  empty _ _ _ := fun e he => by cases he
  grow h := h
  cost h _ := h
  set h _ x := h.set _ x

end Column

/-! ## Programs -/

@[simp]
theorem DenseMatrix.mem_positions {a : DenseMatrix α} {t : Nat × Nat} :
    t ∈ a.positions ↔ t.1 < a.rows ∧ t.2 < a.columns := by
  obtain ⟨r, v⟩ := t
  simp [positions, and_comm]

namespace Program

/-- All columns have a property. -/
def Holds (P : Nat → Column α → Prop) (p : Program α) : Prop := ∀ c ∈ p.columns, P p.rows.length c

variable {p q : Program α} {P : Nat → Column α → Prop}

theorem updateColumn_ok {f : Column α → Column α} {v : Nat} (h : p.updateColumn v f = .ok q) :
    ∃ c, p.columns[v]? = some c ∧ q = { p with columns := p.columns.set v (f c) } := by
  unfold updateColumn column at h
  cases hv : p.columns[v]? with
  | none =>
    rw [hv] at h
    cases h
  | some c =>
    rw [hv] at h
    cases h
    exact ⟨c, rfl, rfl⟩

theorem updateCell_ok {f : Column α → Column α} {r v : Nat}
    (h : (p.row r >>= fun _ => p.updateColumn v f) = .ok q) :
    r < p.rows.length ∧ p.updateColumn v f = .ok q := by
  unfold row at h
  cases hr : p.rows[r]? with
  | none =>
    rw [hr] at h
    cases h
  | some b =>
    rw [hr] at h
    exact ⟨(List.getElem?_eq_some_iff.mp hr).1, h⟩

/-- Changing one column keeps the others. -/
theorem Holds.updateColumn (h : p.Holds P) {f : Column α → Column α}
    (hf : ∀ c, P p.rows.length c → P p.rows.length (f c)) {v : Nat}
    (hq : p.updateColumn v f = .ok q) : q.Holds P := by
  obtain ⟨c, hc, rfl⟩ := updateColumn_ok hq
  intro d hd
  rcases List.mem_or_eq_of_mem_set hd with hd | rfl
  · exact h d hd
  · exact hf c (h c (List.mem_of_getElem? hc))

theorem Holds.updateCell (h : p.Holds P) {f : Column α → Column α} {r v : Nat}
    (hf : ∀ c, P p.rows.length c → r < p.rows.length → P p.rows.length (f c))
    (hq : (p.row r >>= fun _ => p.updateColumn v f) = .ok q) : q.Holds P := by
  obtain ⟨hr, hq⟩ := updateCell_ok hq
  exact h.updateColumn (fun c hc => hf c hc hr) hq

/-- What comes after the check of the shape is reached only if it fits. -/
theorem checked_ok {rows columns : Nat} {constants costs : List α} {result : Program α}
    (h : (checkShape rows columns constants costs >>= fun _ => .ok result) = .ok q) :
    rows = constants.length ∧ columns = costs.length ∧ q = result := by
  unfold checkShape at h
  split at h
  · next hs =>
    cases h
    exact ⟨hs.1, hs.2, rfl⟩
  · cases h

variable [Scalar α] (hP : Column.Lasting P)
include hP

theorem Holds.pushRow (h : p.Holds P) (b : Bounds α) : (p.pushRow b).Holds P := fun c hc => by
  rw [Program.pushRow, List.length_append]
  exact hP.grow (h c hc)

theorem Holds.addVariables (h : p.Holds P) (n : Nat) (b : Bounds α) :
    (p.addVariables n b).Holds P := fun c hc => by
  rcases List.mem_append.mp hc with hc | hc
  · exact h c hc
  · rw [List.eq_of_mem_replicate hc]
    exact hP.empty _ _ _

theorem frame_holds (sense : Sense) (constants costs : List α) (relations : List Relation)
    (nonnegative : Bool) : (frame sense constants costs relations nonnegative).Holds P := by
  intro c hc
  obtain ⟨cost, -, rfl⟩ := List.mem_map.mp hc
  exact hP.empty _ _ _

omit hP in
@[simp]
theorem frame_rows_length (sense : Sense) (constants costs : List α) (relations : List Relation)
    (nonnegative : Bool) :
    (frame sense constants costs relations nonnegative).rows.length = constants.length := by
  simp [frame, List.length_zipIdx]

theorem Holds.accumulate (h : p.Holds P) {r : Nat} (hr : r < p.rows.length) (v : Nat) (value : α) :
    (p.accumulate r v value).Holds P := by
  intro c hc
  obtain ⟨i, hi, rfl⟩ := List.getElem_of_mem hc
  have hi : i < p.columns.length := by simpa [Program.accumulate] using hi
  have hw := h _ (List.getElem_mem hi)
  simp only [Program.accumulate, List.getElem_modify]
  split
  · exact hP.add hw hr value
  · exact hw

/-- Adding up cells in the rows keeps the property. -/
theorem foldl_accumulate {β : Type} (cells : List β) (row column : β → Nat) (value : β → α)
    (h : p.Holds P) (hc : ∀ t ∈ cells, row t < p.rows.length) :
    (cells.foldl (fun q t => q.accumulate (row t) (column t) (value t)) p).Holds P := by
  induction cells generalizing p with
  | nil => exact h
  | cons t rest ih =>
    rw [List.foldl_cons]
    exact ih (h.accumulate hP (hc t List.mem_cons_self) _ _) fun u hu =>
      hc u (List.mem_cons_of_mem t hu)

omit hP in
/-- A program in matrix form is a frame to which cells in the rows and columns are added. -/
theorem ofDense_ok {sense : Sense} {a : DenseMatrix α} {constants costs : List α}
    {relations : List Relation} {nonnegative : Bool}
    (h : ofDense sense a constants costs relations nonnegative = .ok q) :
    a.rows = constants.length ∧ a.columns = costs.length ∧
      q = a.positions.foldl (fun p t => p.accumulate t.1 t.2 (a.entry t.1 t.2))
        (frame sense constants costs relations nonnegative) :=
  checked_ok h

omit hP in
theorem ofTriplets_ok {sense : Sense} {a : TripletMatrix α} {constants costs : List α}
    {relations : List Relation} {nonnegative : Bool}
    (h : ofTriplets sense a constants costs relations nonnegative = .ok q) :
    a.rows = constants.length ∧ a.columns = costs.length ∧
      q = a.cells.foldl (fun p t => p.accumulate t.1 t.2.1 t.2.2)
        (frame sense constants costs relations nonnegative) :=
  checked_ok h

theorem ofDense_holds {sense : Sense} {a : DenseMatrix α} {constants costs : List α}
    {relations : List Relation} {nonnegative : Bool}
    (h : ofDense sense a constants costs relations nonnegative = .ok q) : q.Holds P := by
  obtain ⟨hr, -, rfl⟩ := ofDense_ok h
  have hframe := frame_holds hP sense constants costs relations nonnegative
  refine foldl_accumulate hP _ (fun t : Nat × Nat => t.1) (fun t => t.2)
    (fun t => a.entry t.1 t.2) hframe fun t ht => ?_
  simpa [hr] using (DenseMatrix.mem_positions.mp ht).1

theorem ofTriplets_holds {sense : Sense} {a : TripletMatrix α} {constants costs : List α}
    {relations : List Relation} {nonnegative : Bool}
    (h : ofTriplets sense a constants costs relations nonnegative = .ok q) : q.Holds P := by
  obtain ⟨hr, -, rfl⟩ := ofTriplets_ok h
  have hframe := frame_holds hP sense constants costs relations nonnegative
  refine foldl_accumulate hP _ (fun t : Nat × Nat × α => t.1) (fun t => t.2.1) (fun t => t.2.2)
    hframe fun t ht => ?_
  rw [frame_rows_length, ← hr]
  exact (a.inRange t ht).1

end Program

/-! ## Commands -/

namespace Model

variable {m n : Model α} {P : Nat → Column α → Prop}

theorem edit_holds {f : Program α → Except Rejection (Program α)}
    (hf : ∀ q, f m.program = .ok q → q.Holds P) (h : m.edit f = .ok n) : n.program.Holds P := by
  unfold edit at h
  cases hq : f m.program with
  | error r =>
    rw [hq] at h
    cases h
  | ok q =>
    rw [bind_eq hq] at h
    cases h
    exact hf q hq

theorem load_holds {f : Sense → Except Rejection (Program α)}
    (hf : ∀ s q, f s = .ok q → q.Holds P) (h : m.load f = .ok n) : n.program.Holds P := by
  unfold load at h
  cases hq : f m.program.sense with
  | error r =>
    rw [hq] at h
    cases h
  | ok q =>
    rw [bind_eq hq] at h
    cases h
    exact hf _ q hq

theorem empty_holds (sense : Sense) : (Program.empty (α := α) sense).Holds P := fun c hc => by
  cases hc

variable [Scalar α]

@[simp]
theorem solve_program (e : Engines) (c : Config) (m : Model α) :
    (m.solve e c).1.program = m.program := by
  unfold solve
  dsimp only
  split <;> rfl

variable (hP : Column.Lasting P)
include hP

theorem apply_holds (e : Engines) (hm : m.program.Holds P) {c : Command α}
    (h : m.apply e c = .ok n) : n.program.Holds P := by
  cases c with
  | setSense s =>
    cases h
    exact hm
  | addVariables k b =>
    cases h
    exact hm.addVariables hP k b
  | addRow b =>
    refine edit_holds (f := fun p => p.addRow b) (fun q hq => ?_) h
    unfold Program.addRow at hq
    split at hq
    · cases hq
    · cases hq
      exact hm.pushRow hP b
  | setCost v x =>
    refine edit_holds (f := fun p => p.setCost v x) (fun q hq => ?_) h
    exact hm.updateColumn (f := fun c => { c with cost := x }) (fun c hc => hP.cost hc x) hq
  | addCost v x =>
    refine edit_holds (f := fun p => p.addCost v x) (fun q hq => ?_) h
    exact hm.updateColumn (f := fun c => { c with cost := c.cost + x })
      (fun c hc => hP.cost hc _) hq
  | setCoefficient r v x =>
    refine edit_holds (f := fun p => p.setCoefficient r v x) (fun q hq => ?_) h
    exact hm.updateCell (f := Column.set r x) (fun c hc hr => hP.set hc hr x) hq
  | addCoefficient r v x =>
    refine edit_holds (f := fun p => p.addCoefficient r v x) (fun q hq => ?_) h
    exact hm.updateCell (f := Column.add r x) (fun c hc hr => hP.add hc hr x) hq
  | loadDense a constants costs relations nonnegative =>
    exact load_holds (f := fun s => Program.ofDense s a constants costs relations nonnegative)
      (fun s q hq => Program.ofDense_holds hP hq) h
  | loadTriplets a constants costs relations nonnegative =>
    exact load_holds (f := fun s => Program.ofTriplets s a constants costs relations nonnegative)
      (fun s q hq => Program.ofTriplets_holds hP hq) h
  | clear =>
    cases h
    exact empty_holds _
  | solve c =>
    cases h
    rw [solve_program]
    exact hm

theorem perform_holds (e : Engines) (hm : m.program.Holds P) (c : Command α) :
    (m.perform e c).1.program.Holds P := by
  unfold perform
  cases h : m.apply e c with
  | error r => exact hm
  | ok n => exact apply_holds hP e hm h

theorem Reachable.holds {e : Engines} (h : Reachable e m) : m.program.Holds P := by
  induction h with
  | new sense => exact empty_holds sense
  | perform c _ ih => exact perform_holds hP e ih c

omit hP

/-- The programs that commands lead to store their cells in their rows. -/
theorem Reachable.stored {e : Engines} (h : Reachable e m) : m.program.Stored :=
  h.holds Column.within_lasting

/-- The programs that commands lead to store no cell that is near zero. -/
theorem Reachable.sparse {e : Engines} (h : Reachable e m) : m.program.Sparse :=
  h.holds Column.nonNear_lasting

end Model
end LinearProgramming
