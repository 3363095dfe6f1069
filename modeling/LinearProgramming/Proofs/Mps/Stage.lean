import LinearProgramming.Proofs.Mps.Reader
import LinearProgramming.Proofs.Canonical.Cells
import LinearProgramming.Proofs.Rounding
import LinearProgramming.Proofs.Stored

/-!
# Drafts of a program

* `Exact` (`exact_iff`), `Legible`: a number that a file can state, and a record that is read as it
  was written;
* `Leads`: records make one draft of another; `leads_append`, `leads_update`, if they do so for one
  position after the other;
* `stage`: the draft of a program between two lines of its file;
* `stage_row`, `stage_constant`, `stage_range`, `stage_cost`, `stage_coefficient`, `stage_free`,
  `stage_noLower`, `stage_lower`, `stage_upper`, `stage_fixed`: the stage after one record more.
-/

namespace LinearProgramming.Mps

/-! ## Numbers -/

/-- The double that is written for a rational stands for it: it has the same value, or is the
infinity of a sentinel. -/
def Exact (q : Rat) : Prop := Scalar.ofDouble (Scalar.toDouble q) = q

instance (q : Rat) : Decidable (Exact q) :=
  inferInstanceAs (Decidable (Scalar.ofDouble (Scalar.toDouble q) = q))

/-- The number in a record. -/
def Record.number : Record → Option Binary
  | .cost _ x | .coefficient _ _ x | .constant _ x | .range _ x | .lower _ x | .upper _ x
  | .fixed _ x => some x
  | _ => none

/-- The number in a record is read as it was written. -/
def Legible (number? : String → Option Binary) (t : Record) : Prop :=
  ∀ x ∈ t.number, number? (number x) = some x

instance (number? : String → Option Binary) (t : Record) : Decidable (Legible number? t) :=
  inferInstanceAs (Decidable (∀ x ∈ t.number, number? (number x) = some x))

theorem isZero_iff {q : Rat} : Scalar.isZero q = true ↔ q = 0 := decide_eq_true_iff

theorem toDouble_ne_nan (q : Rat) : Scalar.toDouble q ≠ .nan := by
  rcases toDouble_sign q with h | ⟨m, e, h⟩ <;> rw [h] <;> exact nofun

/-- A finite number is stated exactly if its double has its value. -/
theorem exact_iff {q : Rat} :
    Exact q ↔ q = sentinel ∨ q = -sentinel ∨ (Scalar.toDouble q).toRat? = some q := by
  change rationalOfDouble (rationalToDouble q) = q ↔
    q = sentinel ∨ q = -sentinel ∨ (rationalToDouble q).toRat? = some q
  by_cases hs : q = sentinel
  · exact iff_of_true (by rw [rationalToDouble, if_pos hs, hs]; rfl) (.inl hs)
  · by_cases hn : q = -sentinel
    · exact iff_of_true (by rw [rationalToDouble, if_neg hs, if_pos hn, hn]; rfl) (.inr (.inl hn))
    · simp only [hs, hn, false_or]
      cases hx : rationalToDouble q with
      | nan => exact absurd hx (toDouble_ne_nan q)
      | infinite negative =>
        refine iff_of_false (fun h => ?_) nofun
        cases negative
        · exact hs h.symm
        · exact hn h.symm
      | finite negative m e => simp [rationalOfDouble, Binary.toRat?]

theorem readNumber_eq {number? : String → Option Binary} {q : Rat}
    (h : number? (number (Scalar.toDouble q)) = some (Scalar.toDouble q)) (hq : Exact q) :
    readNumber number? (number (Scalar.toDouble q)) = .ok q := by
  have hne := toDouble_ne_nan q
  rw [readNumber, h]
  split
  · contradiction
  · next hnan => exact absurd (Option.some.inj hnan) hne
  · next x _ hx => rw [← Option.some.inj hx, hq]

/-! ## Records in sequence -/

/-- The records, one after the other, make one draft of another. -/
def Leads (number? : String → Option Binary) (d : Draft) (ts : List Record) (e : Draft) : Prop :=
  ts.foldlM (Draft.record number?) d = .ok e

section Sequences

variable {number? : String → Option Binary} {d e f : Draft} {ts us : List Record}

theorem Leads.nil : Leads number? d [] d := rfl

theorem Leads.cons {t : Record} (ht : d.record number? t = .ok e) (h : Leads number? e ts f) :
    Leads number? d (t :: ts) f := by
  rw [Leads, List.foldlM_cons, bind_eq ht]
  exact h

theorem Leads.append (h : Leads number? d ts e) (hnext : Leads number? e us f) :
    Leads number? d (ts ++ us) f := by
  rw [Leads, List.foldlM_append, bind_eq h]
  exact hnext

theorem Leads.single {t : Record} (ht : d.record number? t = .ok e) : Leads number? d [t] e :=
  .cons ht .nil

variable {β γ : Type} {records : β × Nat → List Record} {s : List γ → Draft} {xs : List β}

/-- Every position adds one entry. -/
theorem leads_append {g : β → γ} (done : List γ)
    (h : ∀ x i, (x, i) ∈ xs.zipIdx done.length → ∀ done : List γ, done.length = i →
      Leads number? (s done) (records (x, i)) (s (done ++ [g x]))) :
    Leads number? (s done) ((xs.zipIdx done.length).flatMap records) (s (done ++ xs.map g)) := by
  induction xs generalizing done with
  | nil =>
    rw [List.map_nil, List.append_nil]
    exact .nil
  | cons x rest ih =>
    rw [List.zipIdx_cons] at h ⊢
    rw [List.flatMap_cons, List.map_cons, List.append_cons]
    refine (h x _ List.mem_cons_self done rfl).append ?_
    have hnext := ih (done ++ [g x])
    rw [List.length_append, List.length_singleton] at hnext
    exact hnext fun y i hy => h y i (List.mem_cons_of_mem _ hy)

/-- Every position changes the entry there. -/
theorem leads_update {f g : β → γ} (done : List γ)
    (h : ∀ x i, (x, i) ∈ xs.zipIdx done.length → ∀ done rest : List γ, done.length = i →
      Leads number? (s (done ++ f x :: rest)) (records (x, i)) (s (done ++ g x :: rest))) :
    Leads number? (s (done ++ xs.map f)) ((xs.zipIdx done.length).flatMap records)
      (s (done ++ xs.map g)) := by
  induction xs generalizing done with
  | nil => exact .nil
  | cons x rest ih =>
    rw [List.zipIdx_cons] at h ⊢
    rw [List.flatMap_cons, List.map_cons, List.map_cons]
    refine (h x _ List.mem_cons_self done _ rfl).append ?_
    have hnext := ih (done ++ [g x])
    rw [List.length_append, List.length_singleton, ← List.append_cons, ← List.append_cons] at hnext
    exact hnext fun y i hy => h y i (List.mem_cons_of_mem _ hy)

end Sequences

/-! ## Stages -/

theorem modify_append_cons {γ : Type} (f : γ → γ) (done : List γ) (x : γ) (rest : List γ) :
    (done ++ x :: rest).modify done.length f = done ++ f x :: rest := by
  induction done with
  | nil => rfl
  | cons y more ih => exact congrArg (y :: ·) ih

/-- The draft between two lines: rows and columns have the names of their positions. -/
def stage (part : Part) (sense : Sense) (rows : List RowDraft) (columns : List (Column Rat)) :
    Draft :=
  ⟨some part, sense, some objectiveName, (List.range rows.length).map rowName, rows,
    (List.range columns.length).map variableName, columns⟩

section Stages

variable {number? : String → Option Binary} {part : Part} {sense : Sense} {rows : List RowDraft}
  {columns : List (Column Rat)}

theorem stage_part (other : Part) :
    (stage part sense rows columns).record number? (.part other) =
      .ok (stage other sense rows columns) := by
  cases other <;> rfl

theorem position_rowName {r : Nat} (hr : r < rows.length) :
    Draft.position (stage part sense rows columns).rowNames (rowName r) = .ok r :=
  position_names (fun _ _ => rowName_injective) hr

theorem position_variableName {v : Nat} (hv : v < columns.length) :
    Draft.position (stage part sense rows columns).columnNames (variableName v) = .ok v :=
  position_names (fun _ _ => variableName_injective) hv

/-! ## Rows -/

theorem stage_row (relation : Relation) :
    (stage .rows sense rows columns).record number? (.row relation rows.length) =
      .ok (stage .rows sense (rows ++ [⟨relation, 0, none⟩]) columns) := by
  have hrow : (stage .rows sense rows columns).record number? (.row relation rows.length) =
      .ok ((stage .rows sense rows columns).addRow relation (rowName rows.length)) := by
    cases relation <;> rfl
  rw [hrow, Draft.addRow, stage, stage, List.length_append, List.length_singleton,
    List.range_succ, List.map_append, List.map_singleton]

section Row

variable {y : RowDraft} {done rest : List RowDraft}

theorem stage_updateRow (f : RowDraft → RowDraft) :
    (stage part sense (done ++ y :: rest) columns).updateRow (rowName done.length) f =
      .ok (stage part sense (done ++ f y :: rest) columns) := by
  have hposition : Draft.position (stage part sense (done ++ y :: rest) columns).rowNames
      (rowName done.length) = .ok done.length := position_rowName (by simp)
  rw [Draft.updateRow, bind_eq hposition, ← modify_append_cons f, stage, stage, List.length_modify]
  rfl

variable {q : Rat} (hq : Exact q)
include hq

theorem stage_constant (ht : Legible number? (.constant done.length (Scalar.toDouble q))) :
    (stage .constants sense (done ++ y :: rest) columns).record number?
        (.constant done.length (Scalar.toDouble q)) =
      .ok (stage .constants sense (done ++ { y with constant := q } :: rest) columns) := by
  change (readNumber number? _ >>= fun x => Draft.updateRow _ (rowName done.length) _) = _
  rw [bind_eq (readNumber_eq (ht _ rfl) hq), stage_updateRow]

theorem stage_range (ht : Legible number? (.range done.length (Scalar.toDouble q))) :
    (stage .ranges sense (done ++ y :: rest) columns).record number?
        (.range done.length (Scalar.toDouble q)) =
      .ok (stage .ranges sense (done ++ { y with range := some q } :: rest) columns) := by
  change (readNumber number? _ >>= fun x => Draft.updateRow _ (rowName done.length) _) = _
  rw [bind_eq (readNumber_eq (ht _ rfl) hq), stage_updateRow]

end Row

/-! ## Columns -/

theorem variableName_mem_iff {v : Nat} :
    variableName v ∈ (stage part sense rows columns).columnNames ↔ v < columns.length := by
  rw [stage, List.mem_map]
  constructor
  · rintro ⟨w, hw, h⟩
    rw [← variableName_injective h]
    exact List.mem_range.mp hw
  · exact fun h => ⟨v, List.mem_range.mpr h, rfl⟩

theorem declare_known {v : Nat} (hv : v < columns.length) :
    (stage part sense rows columns).declare (variableName v) = stage part sense rows columns :=
  if_pos (variableName_mem_iff.mpr hv)

theorem declare_next :
    (stage part sense rows columns).declare (variableName columns.length) =
      stage part sense rows (columns ++ [Column.new .nonnegative]) := by
  rw [Draft.declare, if_neg (mt variableName_mem_iff.mp (lt_irrefl _)), stage, stage,
    List.length_append, List.length_singleton, List.range_succ, List.map_append,
    List.map_singleton]

/-- A name that has been declared is not declared again. -/
@[simp]
theorem declare_declare (d : Draft) (name : String) :
    (d.declare name).declare name = d.declare name := by
  by_cases h : name ∈ d.columnNames
  · have hd : d.declare name = d := if_pos h
    rw [hd, hd]
  · have hnew : name ∈ (d.declare name).columnNames := by
      rw [Draft.declare, if_neg h]
      exact List.mem_append_right _ List.mem_cons_self
    exact if_pos hnew

/-- Every record of a column declares it. -/
theorem record_next {c : Column Rat} {t : Record} (ht : t ∈ columnRecords c columns.length) :
    (stage .columns sense rows columns).record number? t =
      (stage .columns sense rows (columns ++ [Column.new .nonnegative])).record number? t := by
  have henter : ∀ row x,
      (stage .columns sense rows columns).enter (variableName columns.length) row x =
        (stage .columns sense rows (columns ++ [Column.new .nonnegative])).enter
          (variableName columns.length) row x := by
    intro row x
    rw [← declare_next, Draft.enter, Draft.enter, declare_declare]
  have hline : ∀ row w, (stage .columns sense rows columns).line number? false
        [variableName columns.length, row, w] =
      (stage .columns sense rows (columns ++ [Column.new .nonnegative])).line number? false
        [variableName columns.length, row, w] := by
    intro row w
    change (readNumber number? w >>= fun x => Draft.enter _ _ row x) =
      (readNumber number? w >>= fun x => Draft.enter _ _ row x)
    simp only [henter]
  rw [columnRecords, List.mem_append, List.mem_map] at ht
  rcases ht with ht | ⟨e, -, rfl⟩
  · split at ht
    · rw [List.mem_singleton.mp ht]
      exact hline _ _
    · cases ht
  · exact hline _ _

section Column

variable {c : Column Rat} {done rest : List (Column Rat)}

/-- Changing the column that follows some others. -/
theorem stage_modify (f : Column Rat → Column Rat) :
    { stage part sense rows (done ++ c :: rest) with
      columns := (done ++ c :: rest).modify done.length f } =
        stage part sense rows (done ++ f c :: rest) := by
  rw [← modify_append_cons f, stage, stage, List.length_modify]

theorem position_following :
    Draft.position (stage part sense rows (done ++ c :: rest)).columnNames
      (variableName done.length) = .ok done.length :=
  position_variableName (by simp)

theorem declare_following :
    (stage part sense rows (done ++ c :: rest)).declare (variableName done.length) =
      stage part sense rows (done ++ c :: rest) :=
  declare_known (by simp)

variable {q : Rat} (hq : Exact q)
include hq

theorem stage_cost (ht : Legible number? (.cost done.length (Scalar.toDouble q))) :
    (stage .columns sense rows (done ++ c :: rest)).record number?
        (.cost done.length (Scalar.toDouble q)) =
      .ok (stage .columns sense rows (done ++ { c with cost := q } :: rest)) := by
  change (readNumber number? _ >>= fun x =>
    Draft.enter _ (variableName done.length) objectiveName x) = _
  rw [bind_eq (readNumber_eq (ht _ rfl) hq), Draft.enter, declare_following,
    bind_eq position_following]
  exact congrArg Except.ok (stage_modify _)

omit hq in
theorem objectiveName_ne_rowName (r : Nat) : some objectiveName ≠ some (rowName r) := by
  intro h
  have hlist := congrArg String.toList (Option.some.inj h)
  rw [rowName, String.toList_append] at hlist
  cases hlist

theorem stage_coefficient {r : Nat} (hr : r < rows.length)
    (ht : Legible number? (.coefficient done.length r (Scalar.toDouble q))) :
    (stage .columns sense rows (done ++ c :: rest)).record number?
        (.coefficient done.length r (Scalar.toDouble q)) =
      .ok (stage .columns sense rows (done ++ c.set r q :: rest)) := by
  change (readNumber number? _ >>= fun x =>
    Draft.enter _ (variableName done.length) (rowName r) x) = _
  rw [bind_eq (readNumber_eq (ht _ rfl) hq), Draft.enter, declare_following,
    bind_eq position_following]
  change (if some objectiveName = some (rowName r) then _ else _) = _
  rw [if_neg (objectiveName_ne_rowName r), bind_eq (position_rowName hr)]
  exact congrArg Except.ok (stage_modify _)

end Column

/-! ## Bounds -/

section Bound

variable {c : Column Rat} {done rest : List (Column Rat)}

theorem stage_updateBounds (f : Bounds Rat → Bounds Rat) :
    (stage part sense rows (done ++ c :: rest)).updateBounds (variableName done.length) f =
      .ok (stage part sense rows (done ++ { c with bounds := f c.bounds } :: rest)) := by
  rw [Draft.updateBounds, bind_eq position_following]
  exact congrArg Except.ok (stage_modify _)

theorem stage_free :
    (stage .bounds sense rows (done ++ c :: rest)).record number? (.free done.length) =
      .ok (stage .bounds sense rows (done ++ { c with bounds := .free } :: rest)) :=
  stage_updateBounds fun _ => .free

theorem stage_noLower :
    (stage .bounds sense rows (done ++ c :: rest)).record number? (.noLower done.length) =
      .ok (stage .bounds sense rows
        (done ++ { c with bounds := ⟨-sentinel, c.bounds.upper⟩ } :: rest)) :=
  stage_updateBounds fun b => { b with lower := -sentinel }

variable {q : Rat} (hq : Exact q)
include hq

theorem stage_lower (ht : Legible number? (.lower done.length (Scalar.toDouble q))) :
    (stage .bounds sense rows (done ++ c :: rest)).record number?
        (.lower done.length (Scalar.toDouble q)) =
      .ok (stage .bounds sense rows
        (done ++ { c with bounds := ⟨q, c.bounds.upper⟩ } :: rest)) := by
  change (readNumber number? _ >>= fun x => Draft.updateBounds _ (variableName done.length) _) = _
  rw [bind_eq (readNumber_eq (ht _ rfl) hq), stage_updateBounds]

theorem stage_upper (ht : Legible number? (.upper done.length (Scalar.toDouble q))) :
    (stage .bounds sense rows (done ++ c :: rest)).record number?
        (.upper done.length (Scalar.toDouble q)) =
      .ok (stage .bounds sense rows
        (done ++ { c with bounds := ⟨c.bounds.lower, q⟩ } :: rest)) := by
  change (readNumber number? _ >>= fun x => Draft.updateBounds _ (variableName done.length) _) = _
  rw [bind_eq (readNumber_eq (ht _ rfl) hq), stage_updateBounds]

theorem stage_fixed (ht : Legible number? (.fixed done.length (Scalar.toDouble q))) :
    (stage .bounds sense rows (done ++ c :: rest)).record number?
        (.fixed done.length (Scalar.toDouble q)) =
      .ok (stage .bounds sense rows (done ++ { c with bounds := ⟨q, q⟩ } :: rest)) := by
  change (readNumber number? _ >>= fun x => Draft.updateBounds _ (variableName done.length) _) = _
  rw [bind_eq (readNumber_eq (ht _ rfl) hq), stage_updateBounds]

end Bound

end Stages

end LinearProgramming.Mps
