import Mathlib.Algebra.Order.Field.Rat
import LinearProgramming.Proofs.Coefficients
import LinearProgramming.Proofs.FreeRows

/-!
# Programs in matrix form

A load reads cells one after the other into a program without coefficients, in which cells come and
go as partial sums become zero. What it ends with depends on the sums only:

* `TripletMatrix.sumAt_perm`: the sum of all cells at a position, in whatever order they are;
* `Program.Fills`: a frame with given coefficients, of which there is one only
  (`Program.Fills.unique`); `Program.ofTriplets_fills` and `Program.ofDense_fills` are the two ways
  to it;
* `Model.InMatrixForm`: a model as it is after a load, said without the load;
* `Model.loads_agree`: what a load makes of any model, and what does not matter to it: the order of
  the cells, the storage of the matrix and everything in the model but the sense.
-/

namespace LinearProgramming

/-! ## Sums of cells -/

namespace TripletMatrix

variable {a b : TripletMatrix Rat}

/-- Nothing is listed beyond the matrix. -/
theorem sumAt_eq_zero {r v : Nat} (h : ¬ (r < a.rows ∧ v < a.columns)) : a.sumAt r v = 0 := by
  have hnone : (a.cells.filter fun t => t.1 = r ∧ t.2.1 = v) = [] := by
    refine List.filter_eq_nil_iff.mpr fun t ht heq => h ?_
    obtain ⟨rfl, rfl⟩ := of_decide_eq_true heq
    exact a.inRange t ht
  rw [sumAt, hnone]
  rfl

theorem sumAt_perm (h : b.cells.Perm a.cells) (r v : Nat) : b.sumAt r v = a.sumAt r v :=
  ((h.filter _).map _).sum_eq

end TripletMatrix

/-! ## Frames that are filled -/

namespace Program

variable {frame p q : Program Rat} {sum : Nat → Nat → Rat}

/-- The program has the given coefficients, stores none that is zero, and is the frame otherwise. -/
structure Fills (frame : Program Rat) (sum : Nat → Nat → Rat) (q : Program Rat) : Prop where
  stored : q.Stored
  sparse : q.Sparse
  bare : q.bare = frame
  cell : ∀ r v, q.cell r v = sum r v

theorem Fills.unique (hp : frame.Fills sum p) (hq : frame.Fills sum q) : p = q :=
  eq_of_cell hp.stored hq.stored hp.sparse hq.sparse (hp.bare.trans hq.bare.symm)
    fun r v => (hp.cell r v).trans (hq.cell r v).symm

theorem Fills.congr (h : frame.Fills sum q) {total : Nat → Nat → Rat}
    (hs : ∀ r v, sum r v = total r v) : frame.Fills total q where
  stored := h.stored
  sparse := h.sparse
  bare := h.bare
  cell r v := (h.cell r v).trans (hs r v)

theorem Fills.rows (h : frame.Fills sum q) : q.rows = frame.rows := by
  rw [← h.bare]
  rfl

theorem Fills.sense (h : frame.Fills sum q) : q.sense = frame.sense := by
  rw [← h.bare]
  rfl

/-- A column of the frame is that of the program without its cells. -/
theorem Fills.column (h : frame.Fills sum q) {v : Nat} {c : Column Rat}
    (hc : frame.columns[v]? = some c) :
    ∃ d, q.columns[v]? = some d ∧ d.cost = c.cost ∧ d.bounds = c.bounds := by
  rw [← h.bare, Program.bare, List.getElem?_map] at hc
  obtain ⟨d, hd, rfl⟩ := Option.map_eq_some_iff.mp hc
  exact ⟨d, hd, rfl, rfl⟩

theorem Fills.variableCount (h : frame.Fills sum q) : q.variableCount = frame.variableCount := by
  rw [← h.bare]
  exact (List.length_map _).symm

section Loads

variable {sense : Sense} {constants costs : List Rat} {relations : List Relation}
  {nonnegative : Bool}

theorem frame_row {r : Nat} {b : Rat} (hb : constants[r]? = some b) :
    (Program.frame sense constants costs relations nonnegative).rows[r]? =
      some (rowBounds ((relations[r]?).getD .standard) b) := by
  simp [Program.frame, List.getElem?_zipIdx, hb]

theorem ofTriplets_fills {a : TripletMatrix Rat}
    (h : ofTriplets sense a constants costs relations nonnegative = .ok q) :
    (Program.frame sense constants costs relations nonnegative).Fills a.sumAt q where
  stored := ofTriplets_holds Column.within_lasting h
  sparse := ofTriplets_holds Column.nonNear_lasting h
  bare := ofTriplets_bare h
  cell := ofTriplets_cell h

/-- A dense matrix fills the frame with its entries, and nothing beyond them. -/
theorem ofDense_fills {d : DenseMatrix Rat}
    (h : ofDense sense d constants costs relations nonnegative = .ok q) :
    (Program.frame sense constants costs relations nonnegative).Fills
      (fun r v => if r < d.rows ∧ v < d.columns then d.entry r v else 0) q where
  stored := ofDense_holds Column.within_lasting h
  sparse := ofDense_holds Column.nonNear_lasting h
  bare := ofDense_bare h
  cell := ofDense_cell h

theorem ofTriplets_ok_iff {a : TripletMatrix Rat} :
    (∃ q, ofTriplets sense a constants costs relations nonnegative = .ok q) ↔
      Fits a.rows a.columns constants costs := by
  have h := ofTriplets_loads sense a constants costs relations nonnegative
  constructor
  · rintro ⟨q, hq⟩
    by_contra hno
    obtain ⟨r, hr⟩ := h.refused hno
    rw [hq] at hr
    cases hr
  · intro hfits
    obtain ⟨q, hq, -⟩ := h.accepted hfits
    exact ⟨q, hq⟩

/-- Matrices of one size with the same sums make the same program. -/
theorem ofTriplets_congr {a b : TripletMatrix Rat}
    (h : ofTriplets sense a constants costs relations nonnegative = .ok q)
    (hrows : b.rows = a.rows) (hcolumns : b.columns = a.columns)
    (hsum : ∀ r v, b.sumAt r v = a.sumAt r v) :
    ofTriplets sense b constants costs relations nonnegative = .ok q := by
  have hfits : Fits a.rows a.columns constants costs := ofTriplets_ok_iff.mp ⟨q, h⟩
  rw [← hrows, ← hcolumns] at hfits
  obtain ⟨p, hp, -⟩ := (ofTriplets_loads sense b constants costs relations nonnegative).accepted
    hfits
  rw [hp, ((ofTriplets_fills hp).congr hsum).unique (ofTriplets_fills h)]

/-- So does a dense matrix of that size with these sums as entries. -/
theorem ofDense_congr {a : TripletMatrix Rat} {d : DenseMatrix Rat}
    (h : ofTriplets sense a constants costs relations nonnegative = .ok q)
    (hrows : d.rows = a.rows) (hcolumns : d.columns = a.columns)
    (hsum : ∀ r < a.rows, ∀ v < a.columns, d.entry r v = a.sumAt r v) :
    ofDense sense d constants costs relations nonnegative = .ok q := by
  have hfits : Fits a.rows a.columns constants costs := ofTriplets_ok_iff.mp ⟨q, h⟩
  rw [← hrows, ← hcolumns] at hfits
  obtain ⟨p, hp, -⟩ := (ofDense_loads sense d constants costs relations nonnegative).accepted hfits
  have hentry : ∀ r v,
      (if r < d.rows ∧ v < d.columns then d.entry r v else 0) = a.sumAt r v := by
    intro r v
    rw [hrows, hcolumns]
    split
    · next hin => exact hsum r hin.1 v hin.2
    · next hout => exact (TripletMatrix.sumAt_eq_zero hout).symm
  rw [hp, ((ofDense_fills hp).congr hentry).unique (ofTriplets_fills h)]

end Loads

end Program

/-! ## Models -/

namespace Model

/-- The model is not solved, and its program is in matrix form: its coefficients are the given sums,
its rows relate to the constants, where an upper bound is meant if no relation is given, and its
variables have the given costs. -/
structure InMatrixForm (sense : Sense) (sum : Nat → Nat → Rat) (constants costs : List Rat)
    (relations : List Relation) (nonnegative : Bool) (m : Model Rat) : Prop where
  status : m.status = none
  solution : m.solution = none
  sense : m.program.sense = sense
  rowCount : m.program.rowCount = constants.length
  variableCount : m.program.variableCount = costs.length
  coefficient : ∀ r < constants.length, ∀ v < costs.length,
    m.program.coefficient r v = .ok (sum r v)
  listed : ∀ r v x, (r, v, x) ∈ m.program.coefficients ↔
    x ≠ 0 ∧ r < constants.length ∧ v < costs.length ∧ sum r v = x
  atMost : ∀ (r : Nat) (b : Rat), constants[r]? = some b →
    relations[r]? = some .atMost ∨ relations[r]? = none →
      m.program.rows[r]? = some ⟨-sentinel, b⟩
  equal : ∀ (r : Nat) (b : Rat), constants[r]? = some b → relations[r]? = some .equal →
    m.program.rows[r]? = some ⟨b, b⟩
  atLeast : ∀ (r : Nat) (b : Rat), constants[r]? = some b → relations[r]? = some .atLeast →
    m.program.rows[r]? = some ⟨b, sentinel⟩
  column : ∀ (v : Nat) (cost : Rat), costs[v]? = some cost → ∃ c, m.program.columns[v]? = some c ∧
    c.cost = cost ∧ c.bounds = ⟨if nonnegative then 0 else -sentinel, sentinel⟩

variable {m n : Model Rat}

theorem load_eq_ok_iff {f : Sense → Except Rejection (Program Rat)} :
    m.load f = .ok n ↔ ∃ q, f m.program.sense = .ok q ∧ n = ofProgram q := by
  constructor
  · intro h
    obtain ⟨q, hq, hn⟩ := bind_ok h
    exact ⟨q, hq, (Except.ok.inj hn).symm⟩
  · rintro ⟨q, hq, rfl⟩
    unfold load
    rw [bind_eq hq]
    rfl

section

variable {sense : Sense} {sum : Nat → Nat → Rat} {constants costs : List Rat}
  {relations : List Relation} {nonnegative : Bool} {q : Program Rat}

theorem inMatrixForm
    (h : (Program.frame sense constants costs relations nonnegative).Fills sum q) :
    (ofProgram q).InMatrixForm sense sum constants costs relations nonnegative := by
  have hrows : q.rowCount = constants.length := by
    simp [Program.rowCount, h.rows]
  have hcolumns : q.variableCount = costs.length := by
    rw [h.variableCount]
    exact List.length_map _
  have hrow : ∀ {r : Nat} {b : Rat}, constants[r]? = some b →
      q.rows[r]? = some (Program.rowBounds ((relations[r]?).getD .standard) b) := fun hb => by
    rw [h.rows, Program.frame_row hb]
  exact {
    status := rfl
    solution := rfl
    sense := h.sense
    rowCount := hrows
    variableCount := hcolumns
    coefficient := fun r hr v hv => by
      rw [ofProgram, Program.coefficient_eq_ok (hrows ▸ hr) (hcolumns ▸ hv), h.cell]
    listed := fun r v x => by
      rw [ofProgram, Program.mem_coefficients_iff h.stored h.sparse, Program.coefficient_eq_ok_iff,
        hrows, hcolumns, h.cell]
    atMost := fun r b hb hr => by
      rw [ofProgram, hrow hb]
      rcases hr with hr | hr <;> (rw [hr]; rfl)
    equal := fun r b hb hr => by
      rw [ofProgram, hrow hb, hr]
      rfl
    atLeast := fun r b hb hr => by
      rw [ofProgram, hrow hb, hr]
      rfl
    column := fun v cost hv => by
      have hc : (Program.frame sense constants costs relations nonnegative).columns[v]? =
          some ⟨if nonnegative then .nonnegative else .free, cost, []⟩ := by
        simp [Program.frame, hv]
      obtain ⟨d, hd, hcost, hbounds⟩ := h.column hc
      refine ⟨d, hd, hcost, ?_⟩
      rw [hbounds]
      cases nonnegative <;> rfl }

end

/-- A load is refused for the shape of its data only. What it makes of any model is in the matrix
form of its data, and comes about as well if the cells are listed in another order, if the matrix is
given in full, and if the model was another one with the same sense. -/
theorem loads_agree (e : Engines) (m : Model Rat) (a : TripletMatrix Rat)
    (constants costs : List Rat) (relations : List Relation) (nonnegative : Bool) :
    ((∃ n, m.apply e (.loadTriplets a constants costs relations nonnegative) = .ok n) ↔
      a.rows = constants.length ∧ a.columns = costs.length) ∧
    ∀ n, m.apply e (.loadTriplets a constants costs relations nonnegative) = .ok n →
      n.InMatrixForm m.program.sense a.sumAt constants costs relations nonnegative ∧
      (∀ b : TripletMatrix Rat, b.rows = a.rows → b.columns = a.columns →
        b.cells.Perm a.cells →
          m.apply e (.loadTriplets b constants costs relations nonnegative) = .ok n) ∧
      (∀ d : DenseMatrix Rat, d.rows = a.rows → d.columns = a.columns →
        (∀ r < a.rows, ∀ v < a.columns, d.entry r v = a.sumAt r v) →
          m.apply e (.loadDense d constants costs relations nonnegative) = .ok n) ∧
      ∀ k : Model Rat, k.program.sense = m.program.sense →
        k.apply e (.loadTriplets a constants costs relations nonnegative) = .ok n := by
  simp only [apply, load_eq_ok_iff]
  refine ⟨⟨?_, ?_⟩, ?_⟩
  · rintro ⟨n, q, hq, -⟩
    exact Program.ofTriplets_ok_iff.mp ⟨q, hq⟩
  · intro hfits
    obtain ⟨q, hq⟩ := Program.ofTriplets_ok_iff.mpr hfits
    exact ⟨_, q, hq, rfl⟩
  · rintro _ ⟨q, hq, rfl⟩
    refine ⟨inMatrixForm (Program.ofTriplets_fills hq), ?_, ?_, ?_⟩
    · intro b hrows hcolumns hperm
      exact ⟨q, Program.ofTriplets_congr hq hrows hcolumns (TripletMatrix.sumAt_perm hperm), rfl⟩
    · intro d hrows hcolumns hsum
      exact ⟨q, Program.ofDense_congr hq hrows hcolumns hsum, rfl⟩
    · intro k hk
      exact ⟨q, hk ▸ hq, rfl⟩

/-- A model with an optimum, of which nothing is to stay but the sense. -/
def settled : Model Rat := ⟨⟨.maximize, [⟨.free, 1, [(0, 7)]⟩], [⟨1, 14⟩]⟩, some .optimal, some [2]⟩

/-- Cells that cancel, at one position for good, at another until a third one comes. -/
def cancelling : TripletMatrix Rat where
  rows := 2
  columns := 2
  cells := [(0, 0, 2), (1, 0, 4), (0, 0, -2), (1, 1, 3), (0, 0, 5), (1, 0, -4)]
  inRange := by decide

/-- Backwards the cells at the first position are never zero on the way; it comes to the same. -/
theorem settled_loads : ∃ n : Model Rat,
    n.program = ⟨.maximize, [⟨.nonnegative, 1, [(0, 5)]⟩, ⟨.nonnegative, 2, [(1, 3)]⟩],
      [⟨6, 6⟩, .upTo 7]⟩ ∧
    ∀ e : Engines,
      settled.apply e (.loadTriplets cancelling [6, 7] [1, 2] [.equal] true) = .ok n ∧
      n.InMatrixForm .maximize cancelling.sumAt [6, 7] [1, 2] [.equal] true ∧
      settled.apply e (.loadTriplets { cancelling with
        cells := cancelling.cells.reverse
        inRange := by decide } [6, 7] [1, 2] [.equal] true) = .ok n ∧
      settled.apply e (.loadDense ⟨2, 2, fun r v => if r = v then 5 - 2 * r else 0⟩
        [6, 7] [1, 2] [.equal] true) = .ok n ∧
      (Model.new .maximize).apply e
        (.loadTriplets cancelling [6, 7] [1, 2] [.equal] true) = .ok n := by
  have hprogram : Program.ofTriplets .maximize cancelling [6, 7] [1, 2] [.equal] true =
      .ok ⟨.maximize, [⟨.nonnegative, 1, [(0, 5)]⟩, ⟨.nonnegative, 2, [(1, 3)]⟩],
        [⟨6, 6⟩, .upTo 7]⟩ := by
    decide +kernel
  refine ⟨ofProgram _, rfl, fun e => ?_⟩
  have hn := (load_eq_ok_iff (m := settled)
    (f := fun s => Program.ofTriplets s cancelling [6, 7] [1, 2] [.equal] true)).mpr
      ⟨_, hprogram, rfl⟩
  obtain ⟨hform, hperm, hdense, hmodel⟩ :=
    (loads_agree e settled cancelling [6, 7] [1, 2] [.equal] true).2 _ hn
  exact ⟨hn, hform, hperm _ rfl rfl (List.reverse_perm _), hdense _ rfl rfl (by decide +kernel),
    hmodel _ rfl⟩

end Model

end LinearProgramming
