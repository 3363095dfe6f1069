import LinearProgramming.Proofs.Canonical.Cells
import LinearProgramming.Proofs.Stored

/-!
# Rows without a bound

A row that is bounded on neither side asks for nothing. As a single row it is refused, but the rows
of a program in matrix form are taken as they come, whatever their constants.

* `Program.rowBounds_free_iff`: the constant of such a row is an infinity on the side that its
  relation leaves open;
* `Model.perform_hasFreeRow`: what one command does to the free rows of a model;
* `Model.reachable_iff`: the models that commands lead to are those after a list of them;
* `Model.after_hasFreeRow_iff`: the free rows there are come from the last command that replaced
  the program;
* `Model.loophole_unrefused`: a program in matrix form with such a row is not refused.
-/

namespace LinearProgramming

variable {α : Type} [Scalar α]

theorem Bounds.kind_eq_free {b : Bounds α} :
    b.kind = .free ↔ b.isUnboundedBelow = true ∧ b.isUnboundedAbove = true := by
  unfold kind
  cases b.isUnboundedBelow <;> cases b.isUnboundedAbove
  · simp only [Bool.false_eq_true, and_self, iff_false]
    split <;> exact BoundKind.noConfusion
  all_goals simp

/-! ## Programs with free rows -/

namespace Program

variable {p q : Program α}

/-- There is a row that is bounded on neither side. -/
def HasFreeRow (p : Program α) : Prop := ∃ b ∈ p.rows, b.kind = .free

/-- Some row of a program in matrix form is bounded on neither side. -/
def BringsFreeRow (constants : List α) (relations : List Relation) : Prop :=
  ∃ (r : Nat) (constant : α), constants[r]? = some constant ∧
    (rowBounds ((relations[r]?).getD .standard) constant).kind = .free

theorem hasFreeRow_congr (h : p.rows = q.rows) : p.HasFreeRow ↔ q.HasFreeRow := by
  rw [HasFreeRow, h, HasFreeRow]

theorem empty_hasFreeRow (sense : Sense) : ¬ (empty (α := α) sense).HasFreeRow := by
  rintro ⟨b, hb, -⟩
  cases hb

theorem addRow_hasFreeRow {b : Bounds α} (h : p.addRow b = .ok q) :
    q.HasFreeRow ↔ p.HasFreeRow := by
  unfold addRow at h
  split at h
  · cases h
  · next hb =>
    cases h
    simp only [HasFreeRow, pushRow, List.mem_append, List.mem_singleton, or_and_right, exists_or,
      exists_eq_left, hb, or_false]

omit [Scalar α] in
theorem updateColumn_rows {v : Nat} {f : Column α → Column α} (h : p.updateColumn v f = .ok q) :
    q.rows = p.rows := by
  obtain ⟨c, -, rfl⟩ := updateColumn_ok h
  rfl

omit [Scalar α] in
theorem updateCell_rows {r v : Nat} {f : Column α → Column α}
    (h : (p.row r >>= fun _ => p.updateColumn v f) = .ok q) : q.rows = p.rows :=
  updateColumn_rows (updateCell_ok h).2

/-! ## Matrix form -/

theorem foldl_accumulate_rows {β : Type} (cells : List β) (row column : β → Nat) (value : β → α) :
    (cells.foldl (fun p t => p.accumulate (row t) (column t) (value t)) p).rows = p.rows := by
  induction cells generalizing p with
  | nil => rfl
  | cons t rest ih => exact ih

theorem frame_hasFreeRow (sense : Sense) (constants costs : List α) (relations : List Relation)
    (nonnegative : Bool) : (frame sense constants costs relations nonnegative).HasFreeRow ↔
      BringsFreeRow constants relations := by
  simp only [HasFreeRow, BringsFreeRow, frame, List.mem_map, Prod.exists,
    List.mk_mem_zipIdx_iff_getElem?]
  constructor
  · rintro ⟨b, ⟨constant, r, hr, rfl⟩, hb⟩
    exact ⟨r, constant, hr, hb⟩
  · rintro ⟨r, constant, hr, hb⟩
    exact ⟨_, ⟨constant, r, hr, rfl⟩, hb⟩

theorem rowBounds_free_iff {relation : Relation} {constant : Rat} :
    (rowBounds relation constant).kind = .free ↔
      (relation = .atMost ∧ constant = sentinel) ∨
        (relation = .atLeast ∧ constant = -sentinel) := by
  rw [Bounds.kind_eq_free, Bounds.isUnboundedBelow_iff, Bounds.isUnboundedAbove_iff]
  have hsign : (-sentinel : Rat) ≠ sentinel := by decide
  cases relation with
  | atMost =>
    refine ⟨fun h => .inl ⟨rfl, h.2⟩, ?_⟩
    rintro (⟨-, h⟩ | ⟨h, -⟩)
    · exact ⟨rfl, h⟩
    · cases h
  | atLeast =>
    refine ⟨fun h => .inr ⟨rfl, h.1⟩, ?_⟩
    rintro (⟨h, -⟩ | ⟨-, h⟩)
    · cases h
    · exact ⟨h, rfl⟩
  | equal =>
    refine iff_of_false (fun h => hsign (h.1.symm.trans h.2)) ?_
    rintro (⟨h, -⟩ | ⟨h, -⟩)
    · cases h
    · cases h

/-- The matrix has a row for each constant and a column for each cost. -/
def Fits (rows columns : Nat) (constants costs : List α) : Prop :=
  rows = constants.length ∧ columns = costs.length

/-- What comes of a program in matrix form: it is refused for its shape alone, and else its free
rows are those that its constants bring. -/
structure Loads (fits brings : Prop) (result : Except Rejection (Program α)) : Prop where
  refused : ¬ fits → ∃ e, result = .error e
  accepted : fits → ∃ q, result = .ok q ∧ (q.HasFreeRow ↔ brings)

theorem loads_checked {rows columns : Nat} {constants costs : List α} {relations : List Relation}
    (hq : q.HasFreeRow ↔ BringsFreeRow constants relations) :
    Loads (Fits rows columns constants costs) (BringsFreeRow constants relations)
      (checkShape rows columns constants costs >>= fun _ => .ok q) where
  refused h := by
    have hs : checkShape rows columns constants costs = .error _ := if_neg h
    exact ⟨_, by rw [hs]; rfl⟩
  accepted h := ⟨q, bind_eq (if_pos h) _, hq⟩

theorem ofDense_loads (sense : Sense) (a : DenseMatrix α) (constants costs : List α)
    (relations : List Relation) (nonnegative : Bool) :
    Loads (Fits a.rows a.columns constants costs) (BringsFreeRow constants relations)
      (ofDense sense a constants costs relations nonnegative) := by
  apply loads_checked
  rw [← frame_hasFreeRow sense constants costs relations nonnegative]
  exact hasFreeRow_congr (foldl_accumulate_rows _ (fun t : Nat × Nat => t.1) (fun t => t.2)
    fun t => a.entry t.1 t.2)

theorem ofTriplets_loads (sense : Sense) (a : TripletMatrix α) (constants costs : List α)
    (relations : List Relation) (nonnegative : Bool) :
    Loads (Fits a.rows a.columns constants costs) (BringsFreeRow constants relations)
      (ofTriplets sense a constants costs relations nonnegative) := by
  apply loads_checked
  rw [← frame_hasFreeRow sense constants costs relations nonnegative]
  exact hasFreeRow_congr (foldl_accumulate_rows _ (fun t : Nat × Nat × α => t.1)
    (fun t => t.2.1) fun t => t.2.2)

end Program

/-! ## Commands -/

namespace Command

/-- The command asks for a solve. -/
def Solves : Command α → Prop
  | .solve _ => True
  | _ => False

/-- Carried out, the command puts another program in the place of the model's. -/
def Replaces : Command α → Prop
  | .loadDense a constants costs _ _ => Program.Fits a.rows a.columns constants costs
  | .loadTriplets a constants costs _ _ => Program.Fits a.rows a.columns constants costs
  | .clear => True
  | _ => False

/-- The rows that the command loads, if any, contain a free one. -/
def BringsFreeRow : Command α → Prop
  | .loadDense _ constants _ relations _ => Program.BringsFreeRow constants relations
  | .loadTriplets _ constants _ relations _ => Program.BringsFreeRow constants relations
  | _ => False

end Command

namespace Model

variable {m n : Model α} {e : Engines} {c : Command α}

theorem edit_hasFreeRow {f : Program α → Except Rejection (Program α)}
    (hf : ∀ q, f m.program = .ok q → (q.HasFreeRow ↔ m.program.HasFreeRow))
    (h : m.edit f = .ok n) : n.program.HasFreeRow ↔ m.program.HasFreeRow := by
  unfold edit at h
  cases hq : f m.program with
  | error r =>
    rw [hq] at h
    cases h
  | ok q =>
    rw [bind_eq hq] at h
    cases h
    exact hf q hq

theorem edit_keepsRows {f : Program α → Except Rejection (Program α)}
    (hf : ∀ q, f m.program = .ok q → q.rows = m.program.rows) (h : m.edit f = .ok n) :
    n.program.HasFreeRow ↔ m.program.HasFreeRow :=
  edit_hasFreeRow (fun q hq => Program.hasFreeRow_congr (hf q hq)) h

theorem load_hasFreeRow {f : Sense → Except Rejection (Program α)} {fits brings : Prop}
    (hf : ∀ s, Program.Loads fits brings (f s)) (h : m.load f = .ok n) :
    fits ∧ (n.program.HasFreeRow ↔ brings) := by
  unfold load at h
  by_cases hfits : fits
  · obtain ⟨q, hq, hrows⟩ := (hf m.program.sense).accepted hfits
    rw [bind_eq hq] at h
    cases h
    exact ⟨hfits, hrows⟩
  · obtain ⟨r, hr⟩ := (hf m.program.sense).refused hfits
    rw [hr] at h
    cases h

theorem load_refused {f : Sense → Except Rejection (Program α)} {fits brings : Prop} {r : Rejection}
    (hf : ∀ s, Program.Loads fits brings (f s)) (h : m.load f = .error r) : ¬ fits := by
  intro hfits
  obtain ⟨q, hq, -⟩ := (hf m.program.sense).accepted hfits
  unfold load at h
  rw [bind_eq hq] at h
  cases h

/-- A command that replaces the program decides whether there are free rows. -/
theorem replacing_iff {kept free : Prop} (hc : c.Replaces) (h : free ↔ c.BringsFreeRow) :
    free ↔ (c.Replaces ∧ c.BringsFreeRow) ∨ (¬ c.Replaces ∧ kept) := by
  simp only [h, hc, true_and, not_true_eq_false, false_and, or_false]

theorem keeping_iff {kept free : Prop} (hc : ¬ c.Replaces) (h : free ↔ kept) :
    free ↔ (c.Replaces ∧ c.BringsFreeRow) ∨ (¬ c.Replaces ∧ kept) := by
  simp only [h, hc, false_and, not_false_eq_true, true_and, false_or]

/-- A command that is carried out keeps the free rows there are, unless it replaces the program. -/
theorem apply_hasFreeRow (h : m.apply e c = .ok n) : n.program.HasFreeRow ↔
    (c.Replaces ∧ c.BringsFreeRow) ∨ (¬ c.Replaces ∧ m.program.HasFreeRow) := by
  cases c with
  | loadDense a constants costs relations nonnegative =>
    obtain ⟨hfits, hrows⟩ := load_hasFreeRow
      (fun s => Program.ofDense_loads s a constants costs relations nonnegative) h
    exact replacing_iff hfits hrows
  | loadTriplets a constants costs relations nonnegative =>
    obtain ⟨hfits, hrows⟩ := load_hasFreeRow
      (fun s => Program.ofTriplets_loads s a constants costs relations nonnegative) h
    exact replacing_iff hfits hrows
  | clear =>
    cases h
    exact replacing_iff trivial (iff_of_false (Program.empty_hasFreeRow m.program.sense) id)
  | solve s =>
    cases h
    exact keeping_iff id (Program.hasFreeRow_congr (congrArg _ (solve_program e s m)))
  | setSense s =>
    cases h
    exact keeping_iff id (Program.hasFreeRow_congr rfl)
  | addVariables k b =>
    cases h
    exact keeping_iff id (Program.hasFreeRow_congr rfl)
  | addRow b =>
    have hf : ∀ q, m.program.addRow b = .ok q → (q.HasFreeRow ↔ m.program.HasFreeRow) := fun _ =>
      Program.addRow_hasFreeRow
    exact keeping_iff id (edit_hasFreeRow (f := fun p => p.addRow b) hf h)
  | setCost v x =>
    have hf : ∀ q, m.program.setCost v x = .ok q → _ := fun _ => Program.updateColumn_rows
    exact keeping_iff id (edit_keepsRows (f := fun p => p.setCost v x) hf h)
  | addCost v x =>
    have hf : ∀ q, m.program.addCost v x = .ok q → _ := fun _ => Program.updateColumn_rows
    exact keeping_iff id (edit_keepsRows (f := fun p => p.addCost v x) hf h)
  | setCoefficient r v x =>
    have hf : ∀ q, m.program.setCoefficient r v x = .ok q → _ := fun _ => Program.updateCell_rows
    exact keeping_iff id (edit_keepsRows (f := fun p => p.setCoefficient r v x) hf h)
  | addCoefficient r v x =>
    have hf : ∀ q, m.program.addCoefficient r v x = .ok q → _ := fun _ => Program.updateCell_rows
    exact keeping_iff id (edit_keepsRows (f := fun p => p.addCoefficient r v x) hf h)

/-- A command that is refused does not replace the program. -/
theorem not_replaces (h : m.apply e c = .error r) : ¬ c.Replaces := by
  cases c with
  | loadDense a constants costs relations nonnegative =>
    exact load_refused
      (fun s => Program.ofDense_loads s a constants costs relations nonnegative) h
  | loadTriplets a constants costs relations nonnegative =>
    exact load_refused
      (fun s => Program.ofTriplets_loads s a constants costs relations nonnegative) h
  | clear => cases h
  | _ => exact id

theorem perform_hasFreeRow (e : Engines) (m : Model α) (c : Command α) :
    (m.perform e c).1.program.HasFreeRow ↔
      (c.Replaces ∧ c.BringsFreeRow) ∨ (¬ c.Replaces ∧ m.program.HasFreeRow) := by
  unfold perform
  cases h : m.apply e c with
  | ok n => exact apply_hasFreeRow h
  | error r => exact keeping_iff (not_replaces h) Iff.rfl

/-- A free row is refused as a single row, and nothing changes. -/
theorem perform_addRow {b : Bounds α} (e : Engines) (m : Model α) (h : b.kind = .free) :
    m.perform e (.addRow b) = (m, some .unconstrainedRow) := by
  have hrow : m.program.addRow b = .error .unconstrainedRow := if_pos h
  simp only [perform, apply, edit, hrow]
  rfl

/-! ## Runs -/

/-- The model after commands, one after the other. -/
def after (e : Engines) (m : Model α) (cs : List (Command α)) : Model α :=
  cs.foldl (fun m c => (m.perform e c).1) m

theorem after_concat (e : Engines) (m : Model α) (cs : List (Command α)) (c : Command α) :
    m.after e (cs ++ [c]) = ((m.after e cs).perform e c).1 := by
  rw [after, List.foldl_append]
  rfl

/-- Only a solve asks the engines. -/
theorem perform_engines (h : ¬ c.Solves) (e f : Engines) (m : Model α) :
    m.perform e c = m.perform f c := by
  cases c with
  | solve config => exact absurd trivial h
  | _ => rfl

theorem after_engines {cs : List (Command α)} (h : ∀ c ∈ cs, ¬ c.Solves) (e f : Engines)
    (m : Model α) : m.after e cs = m.after f cs :=
  List.foldl_ext _ _ m fun n c hc => congrArg Prod.fst (perform_engines (h c hc) e f n)

theorem Reachable.after {e : Engines} (hm : Reachable e m) (cs : List (Command α)) :
    Reachable e (m.after e cs) := by
  induction cs using List.reverseRecOn with
  | nil => exact hm
  | append_singleton cs c ih =>
    rw [after_concat]
    exact .perform c ih

theorem reachable_iff {e : Engines} :
    Reachable e m ↔ ∃ (sense : Sense) (cs : List (Command α)), m = (new sense).after e cs := by
  constructor
  · intro h
    induction h with
    | new sense => exact ⟨sense, [], rfl⟩
    | perform c _ ih =>
      obtain ⟨sense, cs, rfl⟩ := ih
      exact ⟨sense, cs ++ [c], (after_concat e _ cs c).symm⟩
  · rintro ⟨sense, cs, rfl⟩
    exact (Reachable.new sense).after cs

/-- The last of the commands that replace the program brings a free row. -/
def LastBringsFreeRow (cs : List (Command α)) : Prop :=
  ∃ before c later, cs = before ++ c :: later ∧ c.Replaces ∧ c.BringsFreeRow ∧
    ∀ d ∈ later, ¬ d.Replaces

theorem lastBringsFreeRow_concat {cs : List (Command α)} : LastBringsFreeRow (cs ++ [c]) ↔
    (c.Replaces ∧ c.BringsFreeRow) ∨ (¬ c.Replaces ∧ LastBringsFreeRow cs) := by
  constructor
  · rintro ⟨before, d, later, hcs, hd, hb, hlater⟩
    rcases List.eq_nil_or_concat later with rfl | ⟨rest, last, rfl⟩
    · obtain ⟨-, heq⟩ := List.append_inj' hcs rfl
      obtain rfl := List.singleton_inj.mp heq
      exact .inl ⟨hd, hb⟩
    · rw [List.concat_eq_append, ← List.cons_append, ← List.append_assoc] at hcs
      obtain ⟨rfl, heq⟩ := List.append_inj' hcs rfl
      obtain rfl := List.singleton_inj.mp heq
      rw [List.concat_eq_append] at hlater
      refine .inr ⟨hlater c (by simp), before, d, rest, rfl, hd, hb, ?_⟩
      exact fun x hx => hlater x (List.mem_append_left _ hx)
  · rintro (⟨hc, hb⟩ | ⟨hc, before, d, later, rfl, hd, hb, hlater⟩)
    · exact ⟨cs, c, [], rfl, hc, hb, by simp⟩
    · refine ⟨before, d, later ++ [c], by simp, hd, hb, ?_⟩
      intro x hx
      rcases List.mem_append.mp hx with hx | hx
      · exact hlater x hx
      · rwa [List.mem_singleton.mp hx]

/-- A free row comes from the last command that replaced the program, and from no other. As a single
row it is refused. -/
theorem after_hasFreeRow_iff (e : Engines) :
    (∀ (m : Model α) (b : Bounds α), b.kind = .free →
      m.perform e (.addRow b) = (m, some .unconstrainedRow)) ∧
    ∀ (sense : Sense) (cs : List (Command α)),
      ((new sense).after e cs).program.HasFreeRow ↔ LastBringsFreeRow cs := by
  refine ⟨fun m b => perform_addRow e m, fun sense cs => ?_⟩
  induction cs using List.reverseRecOn with
  | nil =>
    refine iff_of_false (Program.empty_hasFreeRow sense) ?_
    rintro ⟨before, c, later, hcs, -⟩
    simp at hcs
  | append_singleton cs c ih => rw [after_concat, perform_hasFreeRow, ih, lastBringsFreeRow_concat]

/-- A program in matrix form whose only row is at most infinity. -/
def loophole : Command Rat := .loadDense ⟨1, 1, fun _ _ => 1⟩ [sentinel] [1] [.atMost] true

/-- Its row is still there when the sense is changed, and refused as a single row. -/
theorem loophole_stays : (Bounds.free : Bounds Rat).kind = .free ∧ ∀ e : Engines,
    (new .minimize).perform e (.addRow (.free : Bounds Rat)) =
      (new .minimize, some .unconstrainedRow) ∧
    ((new .minimize).after e [loophole, .setSense .maximize]).program.HasFreeRow := by
  have hfree : (Bounds.free : Bounds Rat).kind = .free := by decide
  have hbrings : loophole.BringsFreeRow := ⟨0, sentinel, rfl, by decide⟩
  refine ⟨hfree, fun e => ?_⟩
  refine ⟨(after_hasFreeRow_iff e).1 _ _ hfree, ((after_hasFreeRow_iff e).2 _ _).mpr ?_⟩
  exact ⟨[], loophole, [.setSense .maximize], rfl, ⟨rfl, rfl⟩, hbrings, by simp [Command.Replaces]⟩

theorem loophole_unrefused : ∃ m : Model Rat,
    (∀ e : Engines, (new .minimize).perform e loophole = (m, none) ∧ Reachable e m) ∧
      ∃ b ∈ m.program.rows, b.lower = -sentinel ∧ b.upper = sentinel ∧ b.kind = .free :=
  ⟨_, fun _ => ⟨rfl, .perform loophole (.new .minimize)⟩, ⟨-sentinel, sentinel⟩,
    List.mem_singleton_self _, rfl, rfl, by decide⟩

end Model

end LinearProgramming
