import LinearProgramming.Proofs.Mps.Stage

/-!
# Reading a program's file, part by part

What is left out has the default of its part, and each part leads from one stage to the next:

* `read_rows`: rows are declared with their kinds;
* `read_columns`: columns have their costs and cells, in the order of the rows;
* `read_constants`, `read_ranges`: rows have what is written of them;
* `read_bounds`: columns have their bounds.
-/

namespace LinearProgramming.Mps

section Sections

variable {number? : String → Option Binary} {sense : Sense} {rows : List RowDraft}
  {columns : List (Column Rat)}

/-! ## Rows -/

theorem read_rows (bs : List (Bounds Rat)) :
    Leads number? (stage .rows sense [] columns)
      (bs.zipIdx.map fun t => .row (rowRelation t.1) t.2)
      (stage .rows sense (bs.map fun b => ⟨rowRelation b, 0, none⟩) columns) := by
  rw [List.map_eq_flatMap]
  refine leads_append (s := fun rows => stage .rows sense rows columns) [] ?_
  rintro b _ - done rfl
  exact .single (stage_row (rowRelation b))

/-- What is written of a row: its kind, its constant, and its width if it has two bounds. -/
def RowDraft.of (b : Bounds Rat) : RowDraft :=
  ⟨rowRelation b, rowConstant b, if b.kind = .double then some (b.upper - b.lower) else none⟩

/-- A constant that is not written is zero. -/
theorem read_constants {bs : List (Bounds Rat)} (hb : ∀ b ∈ bs, Exact (rowConstant b))
    (ht : ∀ t ∈ bs.zipIdx.flatMap fun t => constantRecords t.1 t.2, Legible number? t) :
    Leads number? (stage .constants sense (bs.map fun b => ⟨rowRelation b, 0, none⟩) columns)
      (bs.zipIdx.flatMap fun t => constantRecords t.1 t.2)
      (stage .constants sense (bs.map fun b => ⟨rowRelation b, rowConstant b, none⟩) columns) := by
  refine leads_update (s := fun rows => stage .constants sense rows columns) [] ?_
  rintro b r hbr done rest rfl
  have ht : ∀ t ∈ constantRecords b done.length, Legible number? t := fun t h =>
    ht t (List.mem_flatMap.mpr ⟨_, hbr, h⟩)
  unfold constantRecords at ht ⊢
  by_cases h : rowConstant b = 0
  · rw [if_pos (isZero_iff.mpr h), h]
    exact .nil
  · rw [if_neg (mt isZero_iff.mp h)] at ht ⊢
    exact .single (stage_constant (hb b (List.fst_mem_of_mem_zipIdx hbr))
      (ht _ List.mem_cons_self))

theorem read_ranges {bs : List (Bounds Rat)}
    (hb : ∀ b ∈ bs, b.kind = .double → Exact (b.upper - b.lower))
    (ht : ∀ t ∈ bs.zipIdx.flatMap fun t => rangeRecords t.1 t.2, Legible number? t) :
    Leads number?
      (stage .ranges sense (bs.map fun b => ⟨rowRelation b, rowConstant b, none⟩) columns)
      (bs.zipIdx.flatMap fun t => rangeRecords t.1 t.2)
      (stage .ranges sense (bs.map RowDraft.of) columns) := by
  refine leads_update (s := fun rows => stage .ranges sense rows columns) [] ?_
  rintro b r hbr done rest rfl
  have ht : ∀ t ∈ rangeRecords b done.length, Legible number? t := fun t h =>
    ht t (List.mem_flatMap.mpr ⟨_, hbr, h⟩)
  unfold rangeRecords RowDraft.of at *
  by_cases h : b.kind = .double
  · rw [if_pos h] at ht ⊢
    rw [if_pos h]
    exact .single (stage_range (hb b (List.fst_mem_of_mem_zipIdx hbr) h) (ht _ List.mem_cons_self))
  · rw [if_neg h, if_neg h]
    exact .nil

/-! ## Columns -/

/-- A cost that is not written is zero. -/
theorem read_cost {c : Column Rat} (done : List (Column Rat)) (hc : Exact c.cost)
    (ht : ∀ t ∈ columnRecords c done.length, Legible number? t) :
    Leads number? (stage .columns sense rows (done ++ [Column.new .nonnegative]))
      (if !Scalar.isZero c.cost || c.entries.isEmpty then
        [.cost done.length (Scalar.toDouble c.cost)] else [])
      (stage .columns sense rows (done ++ [⟨.nonnegative, c.cost, []⟩])) := by
  by_cases h : (!Scalar.isZero c.cost || c.entries.isEmpty) = true
  · have hcost : Legible number? (.cost done.length (Scalar.toDouble c.cost)) := by
      refine ht _ (List.mem_append_left _ ?_)
      rw [if_pos h]
      exact List.mem_cons_self
    rw [if_pos h]
    exact .single (stage_cost hc hcost)
  · rw [if_neg h]
    rw [Bool.not_eq_true, Bool.or_eq_false_iff, Bool.not_eq_false'] at h
    rw [isZero_iff.mp h.1]
    exact .nil

theorem put_concat {entries : Entries Rat} {r : Nat} (h : ∀ e ∈ entries, e.1 < r) (x : Rat) :
    entries.put r x = entries ++ [(r, x)] := by
  induction entries with
  | nil => rfl
  | cons e rest ih =>
    have he := h e List.mem_cons_self
    rw [Entries.put, if_neg (by omega), if_neg (by omega),
      ih fun d hd => h d (List.mem_cons_of_mem _ hd), List.cons_append]

/-- Cells by increasing row are stored in the order in which they are read. -/
theorem read_cells (b : Bounds Rat) (cost : Rat) (done : List (Column Rat)) {stored : Entries Rat}
    {cells : Entries Rat} (ho : (stored ++ cells).Ordered)
    (hcells : ∀ e ∈ cells, e.1 < rows.length ∧ Scalar.near e.2 0 = false ∧ Exact e.2 ∧
      Legible number? (.coefficient done.length e.1 (Scalar.toDouble e.2))) :
    Leads number? (stage .columns sense rows (done ++ [⟨b, cost, stored⟩]))
      (cells.map fun (r, x) => .coefficient done.length r (Scalar.toDouble x))
      (stage .columns sense rows (done ++ [⟨b, cost, stored ++ cells⟩])) := by
  induction cells generalizing stored with
  | nil =>
    rw [List.append_nil]
    exact .nil
  | cons e rest ih =>
    obtain ⟨r, x⟩ := e
    obtain ⟨hr, hx, hexact, ht⟩ := hcells _ List.mem_cons_self
    have hset : Column.set r x ⟨b, cost, stored⟩ = ⟨b, cost, stored ++ [(r, x)]⟩ := by
      have hlast := put_concat (fun e he =>
        (List.pairwise_append.mp ho).2.2 e he (r, x) List.mem_cons_self) x
      rw [Column.set, if_neg (Bool.eq_false_iff.mp hx), hlast]
    rw [List.append_cons stored] at ho ⊢
    refine .cons (stage_coefficient hexact hr ht) ?_
    rw [hset]
    exact ih ho fun e he => hcells e (List.mem_cons_of_mem _ he)

/-- The first record of a column declares it, and there is one. -/
theorem leads_next {c : Column Rat} {d : Draft}
    (h : Leads number? (stage .columns sense rows (columns ++ [Column.new .nonnegative]))
      (columnRecords c columns.length) d) :
    Leads number? (stage .columns sense rows columns) (columnRecords c columns.length) d := by
  cases hrecords : columnRecords c columns.length with
  | nil =>
    rw [columnRecords, List.append_eq_nil_iff, List.map_eq_nil_iff] at hrecords
    simp [hrecords.2] at hrecords
  | cons t rest =>
    have ht : t ∈ columnRecords c columns.length := by
      rw [hrecords]
      exact List.mem_cons_self
    rw [hrecords, Leads, List.foldlM_cons] at h
    rw [Leads, List.foldlM_cons, record_next ht]
    exact h

theorem read_column {c : Column Rat} {done : List (Column Rat)} (hstored : c.Within rows.length)
    (hsparse : c.NonNear) (hcost : Exact c.cost) (hcells : ∀ e ∈ c.entries, Exact e.2)
    (ht : ∀ t ∈ columnRecords c done.length, Legible number? t) :
    Leads number? (stage .columns sense rows done) (columnRecords c done.length)
      (stage .columns sense rows (done ++ [{ c with bounds := .nonnegative }])) := by
  have hordered : Entries.Ordered ([] ++ c.entries) := hstored.1
  have hrest : ∀ e ∈ c.entries, e.1 < rows.length ∧ Scalar.near e.2 0 = false ∧ Exact e.2 ∧
      Legible number? (.coefficient done.length e.1 (Scalar.toDouble e.2)) := fun e he =>
    ⟨hstored.2 e he, hsparse e he, hcells e he,
      ht _ (List.mem_append_right _ (List.mem_map.mpr ⟨e, he, rfl⟩))⟩
  exact leads_next ((read_cost done hcost ht).append (read_cells _ _ done hordered hrest))

theorem read_columns {cs : List (Column Rat)} (hstored : ∀ c ∈ cs, c.Within rows.length)
    (hsparse : ∀ c ∈ cs, c.NonNear) (hcost : ∀ c ∈ cs, Exact c.cost)
    (hcells : ∀ c ∈ cs, ∀ e ∈ c.entries, Exact e.2)
    (ht : ∀ t ∈ cs.zipIdx.flatMap fun t => columnRecords t.1 t.2, Legible number? t) :
    Leads number? (stage .columns sense rows [])
      (cs.zipIdx.flatMap fun t => columnRecords t.1 t.2)
      (stage .columns sense rows (cs.map fun c => { c with bounds := .nonnegative })) := by
  refine leads_append (s := stage .columns sense rows) [] ?_
  rintro c v hcv done rfl
  have hc : c ∈ cs := List.fst_mem_of_mem_zipIdx hcv
  exact read_column (hstored c hc) (hsparse c hc) (hcost c hc) (hcells c hc) fun t h =>
    ht t (List.mem_flatMap.mpr ⟨_, hcv, h⟩)

/-! ## Bounds -/

/-- A lower bound that is not written is zero. -/
theorem read_lower {c : Column Rat} {done rest : List (Column Rat)} {q : Rat} (hq : Exact q)
    {upper : Rat} (hc : c.bounds = ⟨0, upper⟩)
    (ht : ∀ t ∈ lowerRecords q done.length, Legible number? t) :
    Leads number? (stage .bounds sense rows (done ++ c :: rest)) (lowerRecords q done.length)
      (stage .bounds sense rows (done ++ { c with bounds := ⟨q, upper⟩ } :: rest)) := by
  obtain ⟨b, cost, entries⟩ := c
  obtain rfl : b = ⟨0, upper⟩ := hc
  unfold lowerRecords at *
  by_cases h : q = 0
  · rw [if_pos (isZero_iff.mpr h), h]
    exact .nil
  · rw [if_neg (mt isZero_iff.mp h)] at ht ⊢
    exact .single (stage_lower hq (ht _ List.mem_cons_self))

/-- The records of its bounds, in their order, give a nonnegative variable its own bounds. -/
theorem read_bound {b : Bounds Rat} {cost : Rat} {entries : Entries Rat}
    {done rest : List (Column Rat)} (hlower : Exact b.lower) (hupper : Exact b.upper)
    (ht : ∀ t ∈ boundRecords b done.length, Legible number? t) :
    Leads number? (stage .bounds sense rows (done ++ ⟨.nonnegative, cost, entries⟩ :: rest))
      (boundRecords b done.length)
      (stage .bounds sense rows (done ++ ⟨b, cost, entries⟩ :: rest)) := by
  obtain ⟨lower, upper⟩ := b
  have hends := Bounds.kind_ends lower upper
  unfold boundRecords at *
  generalize Bounds.kind ⟨lower, upper⟩ = kind at hends ht ⊢
  cases hends with
  | free => exact .single stage_free
  | upper => exact .cons stage_noLower (.single (stage_upper hupper (ht _ (by simp))))
  | lower => exact read_lower hlower rfl ht
  | fixed => exact .single (stage_fixed hlower (ht _ (by simp)))
  | double =>
    exact (read_lower hlower rfl fun t h => ht t (List.mem_append_left _ h)).append
      (.single (stage_upper hupper (ht _ (by simp))))

theorem read_bounds {cs : List (Column Rat)}
    (hb : ∀ c ∈ cs, Exact c.bounds.lower ∧ Exact c.bounds.upper)
    (ht : ∀ t ∈ cs.zipIdx.flatMap fun t => boundRecords t.1.bounds t.2, Legible number? t) :
    Leads number? (stage .bounds sense rows (cs.map fun c => { c with bounds := .nonnegative }))
      (cs.zipIdx.flatMap fun t => boundRecords t.1.bounds t.2) (stage .bounds sense rows cs) := by
  suffices h : Leads number?
      (stage .bounds sense rows (cs.map fun c => { c with bounds := .nonnegative }))
      (cs.zipIdx.flatMap fun t => boundRecords t.1.bounds t.2)
      (stage .bounds sense rows (cs.map fun c => c)) by
    rwa [List.map_id'] at h
  refine leads_update (s := stage .bounds sense rows) [] ?_
  rintro c v hcv done rest rfl
  obtain ⟨hlower, hupper⟩ := hb c (List.fst_mem_of_mem_zipIdx hcv)
  exact read_bound hlower hupper fun t h => ht t (List.mem_flatMap.mpr ⟨_, hcv, h⟩)

end Sections

end LinearProgramming.Mps
