import LinearProgramming.Proofs.Conic.Quantities
import LinearProgramming.Proofs.Results

/-!
# The conic form means the same

* `Program.conicSides`: the sides of all quantities, in the order of their rows;
* `Program.conicForm_eq`: the conic form has a row for each of them and no others;
* `ConicProgram.Lists.contains_iff`: such rows ask for the feasible points;
* `Program.conicForm_describes`: so does the conic form, and its data are in good order.
-/

namespace LinearProgramming

open Finset

namespace Program

variable {p : Program Rat} {q : Quantity} {s : Side}

/-! ## Rows in order -/

/-- The sides of all quantities, those that meet a condition. -/
def sidesWhere (p : Program Rat) (f : Side → Bool) : List (Quantity × Side) :=
  p.quantities.flatMap fun q => ((p.boundsOf q).sides.filter f).map fun s => (q, s)

theorem mem_sidesWhere {f : Side → Bool} :
    (q, s) ∈ p.sidesWhere f ↔ s ∈ (p.boundsOf q).sides ∧ f s = true := by
  unfold sidesWhere
  rw [List.mem_flatMap]
  constructor
  · rintro ⟨q, -, hs⟩
    obtain ⟨s, hs, he⟩ := List.mem_map.mp hs
    cases he
    exact List.mem_filter.mp hs
  · intro hs
    exact ⟨q, mem_quantities hs.1, List.mem_map.mpr ⟨s, List.mem_filter.mpr hs, rfl⟩⟩

theorem sidesWhere_nodup (p : Program Rat) (f : Side → Bool) : (p.sidesWhere f).Nodup := by
  refine List.nodup_flatMap.mpr ⟨fun q _ => ?_, p.quantities_nodup.imp fun hne => ?_⟩
  · exact ((Bounds.sides_nodup _).filter _).map fun s t h => (Prod.mk.inj h).2
  · simp only [Function.onFun, List.disjoint_iff_ne, List.mem_map]
    rintro _ ⟨s, -, rfl⟩ _ ⟨t, -, rfl⟩ h
    exact hne (Prod.mk.inj h).1

/-- The row for a side of a quantity. -/
def conicRow (p : Program Rat) (t : Quantity × Side) : ConicRow :=
  .ofSide ((p.boundsOf t.1).toDouble, p.roundedEntries t.1) t.2

/-- What a bounded left side gives for its sides that meet a condition, the program gives for
all. -/
theorem flatMap_bounded {f : Side → Bool} {g : Bounds Binary × List (Nat × Binary) → List ConicRow}
    (h : ∀ q, g ((p.boundsOf q).toDouble, p.roundedEntries q) =
      ((p.boundsOf q).sides.filter f).map fun s => p.conicRow (q, s)) :
    p.toDouble.bounded.flatMap g = (p.sidesWhere f).map p.conicRow := by
  rw [toDouble_bounded, List.flatMap_map, sidesWhere, List.map_flatMap]
  congr 1
  funext q
  rw [h, List.map_map]
  rfl

theorem toDouble_equalities (h : p.Representable) :
    p.toDouble.equalities = (p.sidesWhere (· = .fixed)).map p.conicRow :=
  flatMap_bounded fun q => ConicRow.equalities_eq (h.boundsOf q) _

theorem toDouble_inequalities (h : p.Representable) :
    p.toDouble.inequalities = (p.sidesWhere (· ≠ .fixed)).map p.conicRow :=
  flatMap_bounded fun q => ConicRow.inequalities_eq (h.boundsOf q) _

theorem conicRow_ordered (p : Program Rat) (t : Quantity × Side) :
    Entries.Ordered (p.conicRow t).entries := by
  obtain ⟨q, s⟩ := t
  cases s with
  | fixed | upper => exact p.roundedEntries_ordered q
  | lower => exact Entries.ordered_map (fun _ => Binary.neg) (p.roundedEntries_ordered q)

theorem Representable.conicRow_coefficient (h : p.Representable) (q : Quantity) (s : Side)
    (v : Nat) : (p.conicRow (q, s)).coefficient v = s.sign * p.weight q v := by
  have hvalue := h.roundedEntries_value q v
  cases s with
  | fixed | upper => exact hvalue.trans (one_mul _).symm
  | lower => rw [Side.sign, neg_one_mul, ← hvalue, ← Entries.value_neg]; rfl

theorem Representable.conicRow_constant (h : p.Representable) (hs : s ∈ (p.boundsOf q).sides) :
    (p.conicRow (q, s)).constant.isFinite = true ∧
      (p.conicRow (q, s)).constant.value = s.sign * s.limit (p.boundsOf q) := by
  have hlimit := (h.boundsOf q).limit hs
  cases s with
  | fixed | upper => exact ⟨hlimit.isFinite, hlimit.value.trans (one_mul _).symm⟩
  | lower =>
    have hneg : (p.conicRow (q, .lower)).constant = (p.boundsOf q).toDouble.lower.neg := rfl
    rw [hneg, Binary.isFinite_neg, Binary.value_neg, Side.sign, neg_one_mul]
    exact ⟨hlimit.isFinite, congrArg Neg.neg hlimit.value⟩

theorem Representable.conicRow_isFinite (h : p.Representable) {t : Quantity × Side}
    {e : Nat × Binary} (he : e ∈ (p.conicRow t).entries) : e.2.isFinite = true := by
  obtain ⟨q, s⟩ := t
  cases s with
  | fixed | upper => exact h.roundedEntries_isFinite he
  | lower =>
    obtain ⟨d, hd, rfl⟩ := List.mem_map.mp he
    exact by simpa using h.roundedEntries_isFinite hd

end Program

/-! ## Conic programs -/

namespace ConicProgram

/-- The exact constant of a row. -/
def constant (c : ConicProgram) (i : Nat) : Rat := ((c.constants[i]?).map Binary.value).getD 0

/-- What a point leaves of the constant of a row. -/
def slack (c : ConicProgram) (x : Nat → Rat) (i : Nat) : Rat :=
  c.constant i - c.matrix.leftSide x i

/-- The slacks of the first rows, the equalities, are zero, and the others are at least zero. -/
def Contains (c : ConicProgram) (x : Nat → Rat) : Prop :=
  ∀ i < c.constants.length, if i < c.equalities then c.slack x i = 0 else 0 ≤ c.slack x i

/-- The rows are those of the given sides, which are the sides of all quantities, each of them once
and those that fix a quantity first. -/
structure Lists (c : ConicProgram) (p : Program Rat) (sides : List (Quantity × Side)) : Prop where
  nodup : sides.Nodup
  mem_iff : ∀ q s, (q, s) ∈ sides ↔ s ∈ (p.boundsOf q).sides
  length : c.constants.length = sides.length
  equalities_le : c.equalities ≤ sides.length
  first : ∀ i q s, sides[i]? = some (q, s) → (i < c.equalities ↔ s = .fixed)
  constant : ∀ i q s, sides[i]? = some (q, s) → c.constant i = s.sign * s.limit (p.boundsOf q)
  cell : ∀ i q s, sides[i]? = some (q, s) → ∀ v < p.variableCount,
    c.matrix.cell i v = s.sign * p.weight q v

/-- The conic program asks for the feasible points of a program, by one row for each side, and its
data are finite numbers in good order. -/
structure Describes (c : ConicProgram) (p : Program Rat) : Prop where
  feasible_iff : ∀ x, x.length = p.variableCount → (p.Feasible x ↔ c.Contains (coord x))
  lists : ∃ sides, c.Lists p sides
  wellFormed : c.matrix.WellFormed
  columnCount : c.matrix.columnCount = p.variableCount
  rowCount : c.matrix.rowCount = c.constants.length
  values_finite : ∀ a ∈ c.matrix.values, a.isFinite = true
  constants_finite : ∀ a ∈ c.constants, a.isFinite = true

variable {c : ConicProgram} {p : Program Rat} {sides : List (Quantity × Side)}

theorem Lists.slack_eq (h : c.Lists p sides) (hn : c.matrix.columnCount = p.variableCount)
    {i : Nat} {q : Quantity} {s : Side} (hi : sides[i]? = some (q, s)) (x : Nat → Rat) :
    c.slack x i = s.sign * s.limit (p.boundsOf q) - s.sign * p.amount q x := by
  have hleft : c.matrix.leftSide x i = s.sign * p.amount q x := by
    rw [CompressedColumns.leftSide, hn, Program.amount, Finset.mul_sum]
    exact sum_range_congr fun v hv => by rw [h.cell i q s hi v hv, mul_assoc]
  rw [slack, h.constant i q s hi, hleft]

/-- Rows for all sides ask that all of them hold. -/
theorem Lists.contains_iff (h : c.Lists p sides) (hn : c.matrix.columnCount = p.variableCount)
    (x : Nat → Rat) : c.Contains x ↔ p.FeasibleAt x := by
  have hrow : ∀ i q s, sides[i]? = some (q, s) →
      ((if i < c.equalities then c.slack x i = 0 else 0 ≤ c.slack x i) ↔
        s.Holds (p.boundsOf q) (p.amount q x)) := by
    intro i q s hi
    rw [s.holds_iff_slack, ← h.slack_eq hn hi]
    simp only [h.first i q s hi]
  rw [Program.feasibleAt_iff_sides]
  constructor
  · intro hx q s hs
    obtain ⟨i, hi⟩ := List.getElem?_of_mem ((h.mem_iff q s).mpr hs)
    refine (hrow i q s hi).mp (hx i ?_)
    rw [h.length]
    exact (List.getElem?_eq_some_iff.mp hi).1
  · intro hx i hi
    have hlt : i < sides.length := h.length ▸ hi
    have hat : sides[i]? = some (sides[i].1, sides[i].2) := List.getElem?_eq_getElem hlt
    exact (hrow i _ _ hat).mpr (hx _ _ ((h.mem_iff _ _).mp (List.getElem_mem hlt)))

end ConicProgram

namespace Program

variable {p : Program Rat}

/-- The sides in the order of their rows. -/
def conicSides (p : Program Rat) : List (Quantity × Side) :=
  p.sidesWhere (· = .fixed) ++ p.sidesWhere (· ≠ .fixed)

theorem mem_conicSides {q : Quantity} {s : Side} :
    (q, s) ∈ p.conicSides ↔ s ∈ (p.boundsOf q).sides := by
  simp only [conicSides, List.mem_append, mem_sidesWhere, ← and_or_left]
  simp [em]

theorem conicSides_nodup (p : Program Rat) : p.conicSides.Nodup := by
  refine List.nodup_append.mpr ⟨p.sidesWhere_nodup _, p.sidesWhere_nodup _, ?_⟩
  rintro ⟨q, s⟩ hs t ht rfl
  have hfixed := (mem_sidesWhere.mp hs).2
  have hopen := (mem_sidesWhere.mp ht).2
  simp only [decide_eq_true_eq] at hfixed hopen
  exact hopen hfixed

theorem conicSides_first {i : Nat} {q : Quantity} {s : Side} (hi : p.conicSides[i]? = some (q, s)) :
    i < (p.sidesWhere (· = .fixed)).length ↔ s = .fixed := by
  unfold conicSides at hi
  by_cases hlt : i < (p.sidesWhere (· = .fixed)).length
  · rw [List.getElem?_append_left hlt] at hi
    have hfixed := (mem_sidesWhere.mp (List.mem_of_getElem? hi)).2
    exact iff_of_true hlt (of_decide_eq_true hfixed)
  · rw [List.getElem?_append_right (Nat.le_of_not_lt hlt)] at hi
    have hopen := (mem_sidesWhere.mp (List.mem_of_getElem? hi)).2
    exact iff_of_false hlt (of_decide_eq_true hopen)

/-- The conic form has the rows of all sides. -/
theorem conicForm_eq (h : p.Representable) : ConicProgram.ofRounded p.toDouble =
    { costs := p.toDouble.minimizedCosts
      matrix := .ofRows p.variableCount (p.conicSides.map p.conicRow)
      constants := (p.conicSides.map p.conicRow).map (·.constant)
      equalities := (p.sidesWhere (· = .fixed)).length } := by
  have hrows : p.toDouble.equalities ++ p.toDouble.inequalities =
      p.conicSides.map p.conicRow := by
    rw [toDouble_equalities h, toDouble_inequalities h, conicSides, List.map_append]
  rw [ConicProgram.ofRounded, p.toDouble_variableCount, hrows, toDouble_equalities h,
    List.length_map]

theorem conicRows_ordered (p : Program Rat) :
    ∀ row ∈ p.conicSides.map p.conicRow, Entries.Ordered row.entries :=
  List.forall_mem_map.mpr fun t _ => p.conicRow_ordered t

theorem conicForm_lists (h : p.Representable) :
    (ConicProgram.ofRounded p.toDouble).Lists p p.conicSides := by
  have hrow {i : Nat} {q : Quantity} {s : Side} (hi : p.conicSides[i]? = some (q, s)) :
      (p.conicSides.map p.conicRow)[i]? = some (p.conicRow (q, s)) := by
    rw [List.getElem?_map, hi, Option.map_some]
  rw [conicForm_eq h]
  refine ⟨p.conicSides_nodup, fun q s => mem_conicSides, by simp, ?_, fun i q s => conicSides_first,
    fun i q s hi => ?_, fun i q s hi v hv => ?_⟩
  · rw [conicSides, List.length_append]
    exact Nat.le_add_right ..
  · have hs := mem_conicSides.mp (List.mem_of_getElem? hi)
    simp only [ConicProgram.constant, List.getElem?_map, hi, Option.map_some, Option.getD_some]
    exact (h.conicRow_constant hs).2
  · exact (CompressedColumns.cell_ofRows p.conicRows_ordered (hrow hi) hv).trans
      (h.conicRow_coefficient q s v)

/-- If coefficients and bounds are doubles, the conic form of a program asks for its feasible
points: it has one row for each side, the equalities first, and its columns are well formed. -/
theorem conicForm_describes (h : p.Representable) :
    (ConicProgram.ofRounded p.toDouble).Describes p := by
  have hlists := conicForm_lists h
  have hcolumns : (ConicProgram.ofRounded p.toDouble).matrix.columnCount = p.variableCount := by
    rw [conicForm_eq h]
    rfl
  refine ⟨fun x hx => ?_, ⟨_, hlists⟩, ?_, hcolumns, ?_, ?_, ?_⟩
  · rw [hlists.contains_iff hcolumns, feasible_iff, and_iff_right hx]
  all_goals rw [conicForm_eq h]
  · exact CompressedColumns.ofRows_wellFormed p.conicRows_ordered _
  · exact (List.length_map _).symm
  · intro a ha
    obtain ⟨⟨i, b⟩, he, rfl⟩ := List.mem_map.mp ha
    obtain ⟨part, hpart, he⟩ := List.mem_flatten.mp he
    obtain ⟨v, -, rfl⟩ := List.mem_map.mp hpart
    obtain ⟨row, hrow, hb, -⟩ := CompressedColumns.mem_column.mp he
    obtain ⟨t, -, rfl⟩ := List.mem_map.mp (List.mem_of_getElem? hrow)
    exact h.conicRow_isFinite (e := (v, b)) hb
  · intro a ha
    obtain ⟨row, hrow, rfl⟩ := List.mem_map.mp ha
    obtain ⟨⟨q, s⟩, hs, rfl⟩ := List.mem_map.mp hrow
    exact (h.conicRow_constant (mem_conicSides.mp hs)).1

/-- A range, an equality and an upper side, over a free, a fixed and a bounded variable. -/
def blend : Program Rat where
  sense := .minimize
  columns := [⟨.free, 1, [(0, 1/2), (1, 1)]⟩, ⟨⟨3, 3⟩, 0, [(2, -1)]⟩,
    ⟨⟨-1/4, 2⟩, -1, [(0, 1), (1, 5)]⟩]
  rows := [⟨-1, 5/8⟩, ⟨2, 2⟩, .upTo 7]

theorem blend_conicForm : blend.Representable ∧
    (ConicProgram.ofRounded blend.toDouble).Describes blend ∧
    (ConicProgram.ofRounded blend.toDouble).equalities = 2 ∧
      (ConicProgram.ofRounded blend.toDouble).constants.length = 7 := by
  have h : blend.Representable := by decide +kernel
  exact ⟨h, conicForm_describes h, by decide +kernel, by decide +kernel⟩

end Program

end LinearProgramming
