import Mathlib.Algebra.Order.Field.Rat
import LinearProgramming.Proofs.Canonical.Cells
import LinearProgramming.Proofs.Stored

/-!
# Coefficients of a program

Cells that are zero are not stored, and cells that are stored are kept in order. So a program is no
more than its coefficients and the rest:

* `Program.cell`: the coefficient of a variable in a row, zero where there is none;
* `Program.updateColumn_cell`: what writing one cell makes of all of them;
* `TripletMatrix.sumAt`: the sum of all cells at a position;
* `Program.ofDense_cell`, `Program.ofTriplets_cell`: the coefficients that are loaded;
* `Program.mem_coefficients_iff`, `Program.coefficients_sorted`: the stored cells are the nonzero
  ones, in order;
* `Program.eq_of_cell`: programs with the same coefficients and the same rest are equal.
-/

namespace LinearProgramming

/-! ## Columns -/

/-- Positions increase along a list. -/
theorem zipIdx_sorted {α : Type} (xs : List α) : xs.zipIdx.Pairwise fun a b => a.2 < b.2 := by
  rw [← List.pairwise_map (f := Prod.snd) (R := (· < ·)), List.zipIdx_map_snd]
  exact List.pairwise_lt_range' ..

/-- Entries in order are determined by what they contain. -/
theorem Entries.eq_of_mem_iff {α : Type} {es fs : Entries α} (he : es.Ordered) (hf : fs.Ordered)
    (h : ∀ e, e ∈ es ↔ e ∈ fs) : es = fs := by
  have : Std.Antisymm fun (a b : Nat × α) => a.1 < b.1 :=
    ⟨fun a b hab hba => absurd hab (Nat.lt_asymm hba)⟩
  have : Std.Irrefl fun (a b : Nat × α) => a.1 < b.1 := ⟨fun a => Nat.lt_irrefl a.1⟩
  exact List.Pairwise.eq_of_mem_iff he hf h

namespace Column

variable {c d : Column Rat}

theorem coefficient_set (h : c.entries.Ordered) (r i : Nat) (x : Rat) :
    (c.set r x).coefficient i = if i = r then x else c.coefficient i := by
  unfold coefficient set
  by_cases hx : x = 0
  · subst hx
    simp only [Scalar.near, decide_true, if_true, Entries.lookup_erase]
    split <;> rfl
  · simp only [Scalar.near, hx, decide_false, Bool.false_eq_true, if_false,
      Entries.lookup_put _ _ _ h]
    split <;> rfl

/-- A sum that is zero is forgotten, and so is an addition of zero. -/
theorem coefficient_add (h : c.entries.Ordered) (r i : Nat) (x : Rat) :
    (c.add r x).coefficient i = c.coefficient i + if i = r then x else 0 := by
  have hadd : x ≠ 0 → c.add r x = c.set r (c.coefficient r + x) := by
    intro hx
    unfold add coefficient
    simp only [Scalar.near, hx, decide_false, Bool.false_eq_true, if_false]
    cases c.entries.lookup r with
    | none => exact congrArg (c.set r) (zero_add x).symm
    | some y => rfl
  by_cases hx : x = 0
  · simp [add, Scalar.near, hx]
  · rw [hadd hx, coefficient_set h]
    split
    · next hi => rw [hi]
    · rw [add_zero]

theorem mem_entries_iff (h : c.entries.Ordered) (hz : c.NonNear) {r : Nat} {x : Rat} :
    (r, x) ∈ c.entries ↔ x ≠ 0 ∧ c.coefficient r = x := by
  have hne : ∀ y, (r, y) ∈ c.entries → y ≠ 0 := fun y hy => by
    simpa [Scalar.near] using hz (r, y) hy
  unfold coefficient
  constructor
  · intro hx
    rw [(Entries.lookup_eq_some_iff h).mpr hx]
    exact ⟨hne x hx, rfl⟩
  · rintro ⟨hx, rfl⟩
    cases hg : c.entries.lookup r with
    | none =>
      rw [hg] at hx
      exact absurd rfl hx
    | some y => exact (Entries.lookup_eq_some_iff h).mp hg

theorem eq_of_bare (h : ({ c with entries := [] } : Column Rat) = { d with entries := [] })
    (he : c.entries = d.entries) : c = d := by
  cases c
  cases d
  cases h
  cases he
  rfl

/-- The stored cells are determined by the coefficients. -/
theorem entries_eq (hc : c.entries.Ordered) (hd : d.entries.Ordered) (zc : c.NonNear)
    (zd : d.NonNear) (h : ∀ r, c.coefficient r = d.coefficient r) : c.entries = d.entries := by
  refine Entries.eq_of_mem_iff hc hd ?_
  rintro ⟨r, x⟩
  rw [mem_entries_iff hc zc, mem_entries_iff hd zd, h]

end Column

/-! ## Matrices -/

theorem DenseMatrix.positions_nodup {α : Type} (a : DenseMatrix α) : a.positions.Nodup := by
  refine List.nodup_flatMap.mpr ⟨fun v _ => ?_, ?_⟩
  · exact List.nodup_range.map fun x y hxy => (Prod.mk.inj hxy).1
  · refine List.pairwise_lt_range.imp fun hlt => ?_
    simp only [Function.onFun, List.disjoint_iff_ne, List.mem_map]
    rintro _ ⟨x, -, rfl⟩ _ ⟨y, -, rfl⟩ heq
    exact hlt.ne (Prod.mk.inj heq).2

theorem DenseMatrix.positions_filter {α : Type} (a : DenseMatrix α) (r v : Nat) :
    (a.positions.filter fun t => t.1 = r ∧ t.2 = v) =
      if r < a.rows ∧ v < a.columns then [(r, v)] else [] := by
  have hpair : (fun t : Nat × Nat => decide (t.1 = r ∧ t.2 = v)) =
      fun t => decide (t = (r, v)) := by
    funext t
    simp only [Prod.ext_iff]
  rw [hpair, List.filter_eq, a.positions_nodup.count]
  simp only [mem_positions]
  split <;> rfl

/-- The sum of all values that are listed for a position. -/
def TripletMatrix.sumAt (a : TripletMatrix Rat) (r v : Nat) : Rat :=
  ((a.cells.filter fun t => t.1 = r ∧ t.2.1 = v).map fun t => t.2.2).sum

namespace Program

variable {p q : Program Rat}

/-! ## Reading -/

/-- The coefficient of a variable in a row, zero where there is none. -/
def cell (p : Program Rat) (r v : Nat) : Rat := (p.columns[v]?).elim 0 fun c => c.coefficient r

/-- The program without its coefficients. -/
def bare (p : Program Rat) : Program Rat :=
  { p with columns := p.columns.map fun c => { c with entries := [] } }

@[simp]
theorem bare_bounds (p : Program Rat) :
    (p.bare.columns.map fun c => c.bounds) = p.columns.map fun c => c.bounds := by
  simp [bare, Function.comp_def]

@[simp]
theorem bare_costs (p : Program Rat) : p.bare.costs = p.costs := by
  simp [bare, costs, Function.comp_def]

theorem coefficient_eq_ok {r v : Nat} (hr : r < p.rowCount) (hv : v < p.variableCount) :
    p.coefficient r v = .ok (p.cell r v) := by
  have hrow := List.getElem?_eq_getElem (show r < p.rows.length from hr)
  have hcolumn := List.getElem?_eq_getElem (show v < p.columns.length from hv)
  simp only [coefficient, row, column, cell, hrow, hcolumn]
  rfl

theorem coefficient_eq_ok_iff {r v : Nat} {x : Rat} : p.coefficient r v = .ok x ↔
    r < p.rowCount ∧ v < p.variableCount ∧ p.cell r v = x := by
  constructor
  · intro h
    by_cases hr : r < p.rowCount
    · by_cases hv : v < p.variableCount
      · rw [coefficient_eq_ok hr hv] at h
        exact ⟨hr, hv, Except.ok.inj h⟩
      · have hrow := List.getElem?_eq_getElem (show r < p.rows.length from hr)
        have hcolumn := List.getElem?_eq_none (show p.columns.length ≤ v from Nat.le_of_not_lt hv)
        simp only [coefficient, row, column, hrow, hcolumn] at h
        cases h
    · have hrow := List.getElem?_eq_none (show p.rows.length ≤ r from Nat.le_of_not_lt hr)
      simp only [coefficient, row, hrow] at h
      cases h
  · rintro ⟨hr, hv, rfl⟩
    exact coefficient_eq_ok hr hv

/-- The same variables and rows exist, so that a cell exists in both programs or in none. -/
theorem coefficient_congr (hb : p.bare = q.bare) {r v : Nat} (h : p.cell r v = q.cell r v) :
    p.coefficient r v = q.coefficient r v := by
  have hrows : p.rows = q.rows := (Program.mk.inj hb).2.2
  have hl : p.columns.length = q.columns.length := by
    simpa using congrArg List.length (Program.mk.inj hb).2.1
  simp only [coefficient, row, column, hrows]
  simp only [cell] at h
  by_cases hv : v < p.columns.length
  · simp only [List.getElem?_eq_getElem hv, List.getElem?_eq_getElem (hl ▸ hv)] at h ⊢
    simp only [Option.elim_some] at h
    cases q.rows[r]? with
    | none => rfl
    | some b => exact congrArg Except.ok h
  · simp only [List.getElem?_eq_none (Nat.le_of_not_lt hv),
      List.getElem?_eq_none (hl ▸ Nat.le_of_not_lt hv)]

/-- Nothing is different but, perhaps, the coefficient of one variable in one row. -/
structure DiffersAt (r v : Nat) (p q : Program Rat) : Prop where
  sense : q.sense = p.sense
  rows : q.rows = p.rows
  bounds : (q.columns.map fun c => c.bounds) = p.columns.map fun c => c.bounds
  costs : q.costs = p.costs
  coefficient : ∀ i w, ¬ (i = r ∧ w = v) → q.coefficient i w = p.coefficient i w

theorem DiffersAt.of_bare {r v : Nat} (hb : q.bare = p.bare)
    (h : ∀ i w, ¬ (i = r ∧ w = v) → q.cell i w = p.cell i w) : DiffersAt r v p q where
  sense := (Program.mk.inj hb).1
  rows := (Program.mk.inj hb).2.2
  bounds := by rw [← bare_bounds, hb, bare_bounds]
  costs := by rw [← bare_costs, hb, bare_costs]
  coefficient i w hne := coefficient_congr hb (h i w hne)

/-- The stored cells are those that are not zero. -/
theorem mem_coefficients_iff (hp : p.Stored) (hz : p.Sparse) (r v : Nat) (x : Rat) :
    (r, v, x) ∈ p.coefficients ↔ x ≠ 0 ∧ p.coefficient r v = .ok x := by
  simp only [coefficients, List.mem_flatMap, List.mem_map, Prod.exists, Prod.mk.injEq,
    List.mk_mem_zipIdx_iff_getElem?]
  rw [coefficient_eq_ok_iff]
  constructor
  · rintro ⟨c, v, hc, r, x, hx, rfl, rfl, rfl⟩
    have hmem := List.mem_of_getElem? hc
    obtain ⟨hne, hcoefficient⟩ := (Column.mem_entries_iff (hp c hmem).1 (hz c hmem)).mp hx
    have hcell : p.cell r v = x := by
      rw [cell, hc]
      exact hcoefficient
    exact ⟨hne, (hp c hmem).2 _ hx, (List.getElem?_eq_some_iff.mp hc).1, hcell⟩
  · rintro ⟨hne, -, hv, hx⟩
    have hc := List.getElem?_eq_getElem (show v < p.columns.length from hv)
    have hmem := List.mem_of_getElem? hc
    rw [cell, hc] at hx
    exact ⟨_, v, hc, r, x, (Column.mem_entries_iff (hp _ hmem).1 (hz _ hmem)).mpr ⟨hne, hx⟩,
      rfl, rfl, rfl⟩

/-- They are listed by variable, and then by row. -/
theorem coefficients_sorted (hp : p.Stored) : p.coefficients.Pairwise fun a b =>
    a.2.1 < b.2.1 ∨ (a.2.1 = b.2.1 ∧ a.1 < b.1) := by
  refine List.pairwise_flatMap.mpr ⟨?_, ?_⟩
  · rintro ⟨c, v⟩ hc
    rw [List.mk_mem_zipIdx_iff_getElem?] at hc
    refine List.pairwise_map.mpr ((hp c (List.mem_of_getElem? hc)).1.imp fun hlt => ?_)
    exact .inr ⟨rfl, hlt⟩
  · refine (zipIdx_sorted p.columns).imp ?_
    rintro ⟨c, v⟩ ⟨d, w⟩ hlt a ha b hb
    obtain ⟨e, -, rfl⟩ := List.mem_map.mp ha
    obtain ⟨f, -, rfl⟩ := List.mem_map.mp hb
    exact .inl hlt

/-- Coefficients and the rest are all there is to a program. -/
theorem eq_of_cell (hp : p.Stored) (hq : q.Stored) (zp : p.Sparse) (zq : q.Sparse)
    (hb : p.bare = q.bare) (h : ∀ r v, p.cell r v = q.cell r v) : p = q := by
  obtain ⟨sense, columns, rows⟩ := p
  obtain ⟨sense', columns', rows'⟩ := q
  obtain ⟨rfl, hcolumns, rfl⟩ := Program.mk.inj hb
  congr 1
  have hl : columns.length = columns'.length := by simpa using congrArg List.length hcolumns
  refine List.ext_getElem hl fun v hv hv' => ?_
  have hstrip : ({ columns[v] with entries := [] } : Column Rat) =
      { columns'[v] with entries := [] } := by
    have hat := congrArg (fun cs : List (Column Rat) => cs[v]?) hcolumns
    simpa [hv, hv'] using hat
  have hmem := List.getElem_mem hv
  have hmem' := List.getElem_mem hv'
  have hentries := Column.entries_eq (hp _ hmem).1 (hq _ hmem').1 (zp _ hmem) (zq _ hmem')
    fun r => by simpa [cell, hv, hv'] using h r v
  exact Column.eq_of_bare hstrip hentries

/-! ## Writing -/

/-- What writing to a column makes of the coefficients, and of the rest. -/
theorem updateColumn_cell {f : Column Rat → Column Rat} {g : Nat → Rat → Rat} {v : Nat}
    (hf : ∀ c ∈ p.columns, ∀ i, (f c).coefficient i = g i (c.coefficient i))
    (hq : p.updateColumn v f = .ok q) (i w : Nat) :
    q.cell i w = if w = v then g i (p.cell i w) else p.cell i w := by
  obtain ⟨c, hc, rfl⟩ := updateColumn_ok hq
  have hlt := (List.getElem?_eq_some_iff.mp hc).1
  unfold cell
  rw [List.getElem?_set]
  by_cases hw : w = v
  · subst hw
    rw [if_pos rfl, if_pos hlt, if_pos rfl, hc]
    exact hf c (List.mem_of_getElem? hc) i
  · rw [if_neg (Ne.symm hw), if_neg hw]

theorem updateColumn_bare {f g : Column Rat → Column Rat} {v : Nat}
    (hf : ∀ c, ({ f c with entries := [] } : Column Rat) = g { c with entries := [] })
    (hq : p.updateColumn v f = .ok q) :
    q.bare = { p.bare with columns := p.bare.columns.modify v g } := by
  obtain ⟨c, hc, rfl⟩ := updateColumn_ok hq
  simp [bare, List.modify_eq_set_getElem?, List.map_set, hc, hf]

/-- Adding to a cell that exists. -/
theorem accumulate_cell (hp : p.Stored) {r v : Nat} (hv : v < p.columns.length) (x : Rat)
    (i w : Nat) :
    (p.accumulate r v x).cell i w = p.cell i w + if r = i ∧ v = w then x else 0 := by
  unfold cell accumulate
  rw [List.getElem?_modify]
  by_cases hw : v = w
  · subst hw
    have hc := List.getElem?_eq_getElem hv
    simp [hc, Column.coefficient_add (hp _ (List.mem_of_getElem? hc)).1, eq_comm]
  · simp [hw]

@[simp]
theorem accumulate_bare (p : Program Rat) (r v : Nat) (x : Rat) :
    (p.accumulate r v x).bare = p.bare := by
  have hadd : ∀ c : Column Rat, ({ c.add r x with entries := [] } : Column Rat) =
      { c with entries := [] } := by
    intro c
    unfold Column.add
    split <;> rfl
  simp only [bare, accumulate, Program.mk.injEq, true_and, and_true]
  refine List.ext_getElem (by simp) fun i hi hj => ?_
  simp only [List.getElem_map, List.getElem_modify]
  split
  · exact hadd _
  · rfl

theorem foldl_accumulate_bare {β : Type} (cells : List β) (row column : β → Nat)
    (value : β → Rat) (p : Program Rat) :
    (cells.foldl (fun p t => p.accumulate (row t) (column t) (value t)) p).bare = p.bare := by
  induction cells generalizing p with
  | nil => rfl
  | cons t rest ih => rw [List.foldl_cons, ih, accumulate_bare]

/-- Every cell comes to the sum of what was added to it. -/
theorem foldl_accumulate_cell {β : Type} (cells : List β) (row column : β → Nat) (value : β → Rat)
    (hp : p.Stored)
    (hc : ∀ t ∈ cells, row t < p.rows.length ∧ column t < p.columns.length) (i w : Nat) :
    (cells.foldl (fun p t => p.accumulate (row t) (column t) (value t)) p).cell i w =
      p.cell i w + ((cells.filter fun t => row t = i ∧ column t = w).map value).sum := by
  induction cells generalizing p with
  | nil => exact (add_zero _).symm
  | cons t rest ih =>
    obtain ⟨hr, hv⟩ := hc t List.mem_cons_self
    have hnext : (p.accumulate (row t) (column t) (value t)).Stored :=
      Holds.accumulate Column.within_lasting hp hr _ _
    have hrest : ∀ u ∈ rest, row u < (p.accumulate (row t) (column t) (value t)).rows.length ∧
        column u < (p.accumulate (row t) (column t) (value t)).columns.length := by
      intro u hu
      simpa [accumulate] using hc u (List.mem_cons_of_mem t hu)
    rw [List.foldl_cons, ih hnext hrest, accumulate_cell hp hv, List.filter_cons]
    by_cases h : row t = i ∧ column t = w <;> simp [h, add_assoc]

/-! ## Loading -/

@[simp]
theorem frame_cell (sense : Sense) (constants costs : List Rat) (relations : List Relation)
    (nonnegative : Bool) (i w : Nat) :
    (frame sense constants costs relations nonnegative).cell i w = 0 := by
  unfold cell frame
  rw [List.getElem?_map]
  cases costs[w]? <;> rfl

@[simp]
theorem frame_bare (sense : Sense) (constants costs : List Rat) (relations : List Relation)
    (nonnegative : Bool) : (frame sense constants costs relations nonnegative).bare =
      frame sense constants costs relations nonnegative := by
  simp [bare, frame]

section Matrix

variable {sense : Sense} {constants costs : List Rat} {relations : List Relation}
  {nonnegative : Bool}

/-- Every position of the matrix is read once. -/
theorem ofDense_cell {a : DenseMatrix Rat}
    (h : ofDense sense a constants costs relations nonnegative = .ok q) (i w : Nat) :
    q.cell i w = if i < a.rows ∧ w < a.columns then a.entry i w else 0 := by
  obtain ⟨hr, hc, rfl⟩ := ofDense_ok h
  have hframe : (frame sense constants costs relations nonnegative).Stored :=
    frame_holds Column.within_lasting sense constants costs relations nonnegative
  rw [foldl_accumulate_cell _ (fun t : Nat × Nat => t.1) (fun t => t.2) (fun t => a.entry t.1 t.2)
    hframe, frame_cell, zero_add, a.positions_filter]
  · split <;> simp
  · intro t ht
    obtain ⟨h1, h2⟩ := DenseMatrix.mem_positions.mp ht
    simp [← hr, h1, frame, ← hc, h2]

theorem ofDense_bare {a : DenseMatrix Rat}
    (h : ofDense sense a constants costs relations nonnegative = .ok q) :
    q.bare = frame sense constants costs relations nonnegative := by
  obtain ⟨-, -, rfl⟩ := ofDense_ok h
  rw [foldl_accumulate_bare _ (fun t : Nat × Nat => t.1) (fun t => t.2)
    (fun t => a.entry t.1 t.2), frame_bare]

theorem ofTriplets_cell {a : TripletMatrix Rat}
    (h : ofTriplets sense a constants costs relations nonnegative = .ok q) (i w : Nat) :
    q.cell i w = a.sumAt i w := by
  obtain ⟨hr, hc, rfl⟩ := ofTriplets_ok h
  have hframe : (frame sense constants costs relations nonnegative).Stored :=
    frame_holds Column.within_lasting sense constants costs relations nonnegative
  rw [foldl_accumulate_cell _ (fun t : Nat × Nat × Rat => t.1) (fun t => t.2.1) (fun t => t.2.2)
    hframe, frame_cell, zero_add, TripletMatrix.sumAt]
  intro t ht
  obtain ⟨h1, h2⟩ := a.inRange t ht
  simp [← hr, h1, frame, ← hc, h2]

theorem ofTriplets_bare {a : TripletMatrix Rat}
    (h : ofTriplets sense a constants costs relations nonnegative = .ok q) :
    q.bare = frame sense constants costs relations nonnegative := by
  obtain ⟨-, -, rfl⟩ := ofTriplets_ok h
  rw [foldl_accumulate_bare _ (fun t : Nat × Nat × Rat => t.1) (fun t => t.2.1) (fun t => t.2.2),
    frame_bare]

end Matrix

end Program

end LinearProgramming
