import LinearProgramming.Proofs.Canonical.Standard

/-!
# The canonical form means the same

* `recoverAll_eq_ok`: from a point of the canonical form all variables are recovered;
* `feasible_of_solves`, `exists_solves`: the points recovered are the feasible ones;
* `canonicalForm_objective`: the objectives differ by the sign of the sense and a constant;
* `canonicalForm_correct`: the three together.
-/

namespace LinearProgramming

open Finset

/-- The sign that turns an objective into one to be minimized. -/
def Sense.sign : Sense → Rat
  | .minimize => 1
  | .maximize => -1

namespace Program

variable {p : Program Rat}

/-- The values keep all bounds. -/
def FeasibleAt (p : Program Rat) (x : Nat → Rat) : Prop :=
  (∀ (j : Nat) (c : Column Rat), p.columns[j]? = some c → c.bounds.Admits (x j)) ∧
    ∀ (r : Nat) (b : Bounds Rat), p.rows[r]? = some b → b.Admits (p.leftSide x r)

theorem feasible_iff {x : List Rat} :
    p.Feasible x ↔ x.length = p.variableCount ∧ p.FeasibleAt (coord x) :=
  ⟨fun h => ⟨h.length, h.bounds, h.rows⟩, fun h => ⟨h.1, h.2.1, h.2.2⟩⟩

theorem feasibleAt_congr {x y : Nat → Rat} (h : ∀ j < p.variableCount, x j = y j) :
    p.FeasibleAt x ↔ p.FeasibleAt y := by
  have hleft : ∀ r, p.leftSide x r = p.leftSide y r := fun r =>
    weigh_congr fun j hj => h j (by rwa [List.length_map] at hj)
  unfold FeasibleAt
  simp only [hleft]
  refine and_congr (forall_congr' fun j => forall_congr' fun c => forall_congr' fun hc => ?_)
    Iff.rfl
  rw [h j (List.getElem?_eq_some_iff.mp hc).1]

theorem solves_iff_balanced {y : List Rat} : p.Solves y ↔
    y.length = p.variableCount ∧ (∀ v ∈ y, 0 ≤ v) ∧ p.Balanced (coord y) :=
  ⟨fun h => ⟨h.length, h.nonneg, h.rows⟩, fun h => ⟨h.1, h.2.1, h.2.2⟩⟩

/-! ## Substituted variables -/

theorem substitute_variableCount (hp : p.Stored) : p.substitute.variableCount =
    p.variableCount + p.substitution.partners.length := by
  simp [variableCount, substitute, Substitution.program, (substitution_shaped hp).replaced]

theorem substitute_leftSide (hp : p.Stored) (z : Nat → Rat) (r : Nat) :
    p.substitute.leftSide z r = p.substitution.left p.variableCount z r := by
  rw [leftSide, substitute, Substitution.program, List.map_append, weigh_append, List.length_map,
    (substitution_shaped hp).replaced]
  rfl

/-- The rows of the substituted program hold exactly where feasible values are recovered. -/
theorem substitute_enforced (hp : p.Stored) (ht : p.Tame) {z : Nat → Rat} (hz : ∀ v, 0 ≤ z v) :
    p.substitute.Enforced z ↔ p.FeasibleAt (p.substitution.point z) := by
  have h := substitution_follows hp ht
  -- a row of the program holds where its shifted copy does
  have hrow : ∀ (r : Nat) (b : Bounds Rat), p.rows[r]? = some b →
      ((b.shiftDown (p.offset p.variableCount r)).Enforces (p.substitute.leftSide z r) ↔
        b.Admits (p.leftSide (p.substitution.point z) r)) := by
    intro r b hb
    have hr := (List.getElem?_eq_some_iff.mp hb).1
    have hk := ht.bounded b (List.mem_of_getElem? hb)
    simp only [(ht.movable hb le_rfl).enforces hk, substitute_leftSide hp, h.left z r hr,
      sub_add_cancel, ← leftSide_eq, Bounds.enforces_iff hk]
  have hextra := h.extra z
  simp only [← substitute_leftSide hp] at hextra
  constructor
  · intro he
    refine ⟨?_, fun r b hb => (hrow r b hb).mp (he r _ (h.rows r b hb))⟩
    intro j c hc
    have hj := (List.getElem?_eq_some_iff.mp hc).1
    obtain ⟨hlow, hup⟩ := h.within z hz j hj c hc
    refine ⟨hlow, hup.imp_right fun hup => hup.elim (fun hleaves => ?_) id⟩
    exact hextra.mp (fun r b _ hb => he r b hb) j hj c hc hleaves
  · rintro ⟨hcolumns, hrows⟩ r b hb
    by_cases hr : r < p.rowCount
    · have ha := List.getElem?_eq_getElem (show r < p.rows.length from hr)
      obtain rfl := Option.some.inj ((h.rows r _ ha).symm.trans hb)
      exact (hrow r _ ha).mpr (hrows r _ ha)
    · refine hextra.mpr (fun j hj c hc hleaves => ?_) r b (Nat.le_of_not_lt hr) hb
      exact (hcolumns j c hc).2.resolve_left (by simp [hleaves.2])

/-! ## Points of the form -/

theorem canonicalForm_balanced (y : Nat → Rat) :
    p.canonicalForm.program.Balanced y ↔ p.substitute.splitRanges.addSlacks.Balanced y := by
  simp only [canonicalForm, orient_balanced, makeNonnegative_balanced]

theorem canonicalForm_enforced (hp : p.Stored) {y : Nat → Rat} (hy : ∀ v, 0 ≤ y v)
    (h : p.canonicalForm.program.Balanced y) : p.substitute.Enforced y :=
  (splitRanges_enforced (substitute_stored hp) y).mp
    (enforced_of_balanced (fun _ => splitRanges_kind) hy ((canonicalForm_balanced y).mp h))

theorem canonicalForm_variableCount (p : Program Rat) : p.canonicalForm.program.variableCount =
    p.substitute.variableCount + (slackColumns p.substitute.splitRanges.rows 0).length := by
  rw [canonicalForm, orient_variableCount]
  simp only [makeNonnegative, addSlacks, splitRanges, variableCount, List.length_map,
    List.length_append]
  rfl

theorem value_eq_ok {t : Recovery Rat} {i : Nat} {y : List Rat} (hi : i < y.length)
    (hk : ∀ k, t.paired = some k → k < y.length) : t.value i y = .ok (t.read i (coord y)) := by
  unfold Recovery.value Recovery.read
  rw [bind_eq (fetch_eq_ok hi), coord_of_lt hi]
  dsimp only
  split
  · next hp => simp [hp, pure, Except.pure]
  · next k hp =>
    have hky := hk k hp
    rw [bind_eq (fetch_eq_ok hky), hp, Option.elim_some, coord_of_lt hky]
    rfl

/-- Every substituted variable is recovered from a point that is long enough. -/
theorem recoverAll_eq_ok (hp : p.Stored) {y : List Rat}
    (hl : p.substitute.variableCount ≤ y.length) :
    recoverAll p.canonicalForm.recoveries y =
      .ok ((List.range p.variableCount).map (p.substitution.point (coord y))) := by
  have hs := substitution_shaped hp
  rw [substitute_variableCount hp] at hl
  have hvalue : ∀ t ∈ p.substitution.recoveries.zipIdx,
      t.1.value t.2 y = .ok (t.1.read t.2 (coord y)) := by
    rintro ⟨t, i⟩ hm
    obtain ⟨-, hi, -⟩ := List.mem_zipIdx hm
    rw [Nat.zero_add, hs.recoveries] at hi
    apply value_eq_ok (by omega)
    intro k hk
    have := (hs.pairs t (List.fst_mem_of_mem_zipIdx hm) k hk).2
    omega
  rw [recoverAll, canonicalForm, mapM_eq_ok hvalue]
  apply congrArg Except.ok
  apply List.ext_getElem
  · simp [List.length_zipIdx, hs.recoveries]
  · intro i h1 h2
    have hi : i < p.substitution.recoveries.length := by simpa using h1
    simp [Substitution.point, hi]

theorem canonicalForm_recovers (hp : p.Stored) {y : List Rat}
    (hy : p.canonicalForm.program.Solves y) : recoverAll p.canonicalForm.recoveries y =
      .ok ((List.range p.variableCount).map (p.substitution.point (coord y))) := by
  refine recoverAll_eq_ok hp ?_
  rw [hy.length, canonicalForm_variableCount]
  omega

theorem coord_range_map {n j : Nat} (f : Nat → Rat) (hj : j < n) :
    coord ((List.range n).map f) j = f j := by
  simp [coord, hj]

/-- What solves the canonical form gives feasible values. -/
theorem feasible_of_solves (hp : p.Stored) (ht : p.Tame) {y : List Rat}
    (hy : p.canonicalForm.program.Solves y) :
    p.Feasible ((List.range p.variableCount).map (p.substitution.point (coord y))) := by
  obtain ⟨-, hv, hb⟩ := solves_iff_balanced.mp hy
  have hpos := coord_nonneg hv
  refine feasible_iff.mpr ⟨by simp, (feasibleAt_congr fun j hj => coord_range_map _ hj).mpr ?_⟩
  exact (substitute_enforced hp ht hpos).mp (canonicalForm_enforced hp hpos hb)

/-- What keeps the rows of the substituted program is completed to a solution of the form. -/
theorem exists_solves_of_enforced (hp : p.Stored) {z : Nat → Rat} (hz : ∀ v, 0 ≤ z v)
    (h : p.substitute.Enforced z) : ∃ y, p.canonicalForm.program.Solves y ∧
      ∀ v < p.substitute.variableCount, coord y v = z v := by
  obtain ⟨y, hy, hyz, hb⟩ := exists_balanced (fun _ => splitRanges_kind) hz
    ((splitRanges_enforced (substitute_stored hp) z).mpr h)
  have hn : p.substitute.splitRanges.variableCount = p.substitute.variableCount :=
    List.length_map _
  rw [hn] at hyz
  have hcoord : ∀ j < p.canonicalForm.program.variableCount,
      coord ((List.range p.canonicalForm.program.variableCount).map y) j = y j := fun j hj =>
    coord_range_map y hj
  have hle := canonicalForm_variableCount p
  refine ⟨(List.range p.canonicalForm.program.variableCount).map y,
    solves_iff_balanced.mpr ⟨by simp, ?_, ?_⟩, fun v hv => by rw [hcoord v (by omega), hyz v hv]⟩
  · intro v hv
    obtain ⟨j, -, rfl⟩ := List.mem_map.mp hv
    exact hy j
  · intro r b hr
    rw [← (canonicalForm_balanced y).mpr hb r b hr]
    exact weigh_congr fun j hj => hcoord j (by rwa [List.length_map] at hj)

/-- Every feasible point is recovered from a solution of the canonical form. -/
theorem exists_solves (hp : p.Stored) (ht : p.Tame) {x : List Rat} (hx : p.Feasible x) :
    ∃ y, p.canonicalForm.program.Solves y ∧ recoverAll p.canonicalForm.recoveries y = .ok x := by
  obtain ⟨hl, hfeasible⟩ := feasible_iff.mp hx
  obtain ⟨z, hz, hzx⟩ := (substitution_follows hp ht).cover (coord x) fun j _ c hc =>
    hfeasible.1 j c hc
  have henforced := (substitute_enforced hp ht hz).mpr ((feasibleAt_congr hzx).mpr hfeasible)
  obtain ⟨y, hy, hyz⟩ := exists_solves_of_enforced hp hz henforced
  refine ⟨y, hy, ?_⟩
  rw [canonicalForm_recovers hp hy]
  refine congrArg Except.ok (eq_of_coord (by simp [hl]) fun j hj => ?_)
  rw [List.length_map, List.length_range] at hj
  have hs := substitution_shaped hp
  have hcount := substitute_variableCount hp
  rw [coord_range_map _ hj, ← hzx j hj]
  apply hs.point_congr _ hj
  intro v hv
  exact hyz v (by omega)

/-! ## Objectives -/

theorem orient_weigh (q : Program Rat) (y : Nat → Rat) :
    weigh q.orient.costs y = q.sense.sign * weigh q.costs y := by
  unfold orient
  cases q.sense with
  | minimize => exact (one_mul _).symm
  | maximize =>
    rw [Sense.sign, neg_one_mul, ← weigh_neg]
    simp only [costs, List.map_map]
    rfl

theorem canonicalForm_weigh (p : Program Rat) (y : Nat → Rat) :
    weigh p.canonicalForm.program.costs y = p.sense.sign * weigh p.substitute.costs y := by
  have hcosts : p.substitute.splitRanges.addSlacks.makeNonnegative.costs =
      p.substitute.costs ++ (slackColumns p.substitute.splitRanges.rows 0).map (·.cost) := by
    simp only [costs, makeNonnegative, addSlacks, splitRanges, List.map_map, List.map_append]
    rfl
  rw [canonicalForm, orient_weigh, hcosts, weigh_append]
  have hzero : ∀ w ∈ (slackColumns p.substitute.splitRanges.rows 0).map (·.cost), w = 0 := by
    intro w hw
    obtain ⟨c, hc, rfl⟩ := List.mem_map.mp hw
    exact (mem_slackColumns hc).2.1
  rw [weigh_eq_zero hzero, add_zero]
  rfl

/-- The constant part of the objective. -/
def constant (p : Program Rat) : Rat :=
  ∑ j ∈ range p.variableCount, coord p.costs j * p.origin j

/-- Up to its sign and a constant, the objective of the form is that of the recovered point. -/
theorem canonicalForm_objective (hp : p.Stored) (ht : p.Tame) {y : List Rat}
    (hy : p.canonicalForm.program.Solves y) : p.canonicalForm.program.objective y =
      p.sense.sign * p.objective ((List.range p.variableCount).map (p.substitution.point (coord y)))
        + -(p.sense.sign * p.constant) := by
  have hs := substitution_shaped hp
  have hcosts : weigh p.substitute.costs (coord y) =
      p.substitution.total p.variableCount (·.cost) (coord y) := by
    rw [costs, substitute, Substitution.program, List.map_append, weigh_append, List.length_map,
      hs.replaced]
    rfl
  have hobjective : weigh p.costs (coord ((List.range p.variableCount).map
      (p.substitution.point (coord y)))) =
        ∑ j ∈ range p.variableCount, coord p.costs j * p.substitution.point (coord y) j := by
    rw [weigh, show p.costs.length = p.variableCount from List.length_map _]
    exact sum_range_congr fun j hj => by rw [coord_range_map _ hj]
  rw [objective_eq _ hy.length, canonicalForm_weigh, hcosts,
    (substitution_follows hp ht).cost (coord y), objective_eq _ (by simp), hobjective, constant]
  ring

/-- What is recovered from a solution is feasible, and the objectives agree. -/
theorem recovered (hp : p.Stored) (ht : p.Tame) {y : List Rat}
    (hy : p.canonicalForm.program.Solves y) :
    ∃ x, recoverAll p.canonicalForm.recoveries y = .ok x ∧ p.Feasible x ∧
      p.canonicalForm.program.objective y =
        p.sense.sign * p.objective x + -(p.sense.sign * p.constant) :=
  ⟨_, canonicalForm_recovers hp hy, feasible_of_solves hp ht hy, canonicalForm_objective hp ht hy⟩

/-! ## The form as a whole -/

/-- The canonical form means what the program does: its solutions recover feasible points, all of
them, and the objectives agree up to the sign of the sense and a constant. -/
theorem canonicalForm_correct (hp : p.Stored) (ht : p.Tame) :
    (∀ y, p.canonicalForm.program.Solves y →
      ∃ x, recoverAll p.canonicalForm.recoveries y = .ok x ∧ p.Feasible x) ∧
    (∀ x, p.Feasible x →
      ∃ y, p.canonicalForm.program.Solves y ∧ recoverAll p.canonicalForm.recoveries y = .ok x) ∧
    ∃ k, ∀ y x, p.canonicalForm.program.Solves y →
      recoverAll p.canonicalForm.recoveries y = .ok x →
        p.canonicalForm.program.objective y = p.sense.sign * p.objective x + k := by
  refine ⟨?_, fun x hx => exists_solves hp ht hx, -(p.sense.sign * p.constant),
    ?_⟩
  · intro y hy
    obtain ⟨x, hx, hf, -⟩ := recovered hp ht hy
    exact ⟨x, hx, hf⟩
  · intro y x hy hx
    obtain ⟨w, hw, -, ho⟩ := recovered hp ht hy
    obtain rfl := Except.ok.inj (hw.symm.trans hx)
    exact ho

/-- A program with all kinds of variables: a free one, one with an upper bound and one with both. -/
def mixture : Program Rat where
  sense := .maximize
  columns := [⟨.free, 1, [(0, 1), (1, 1)]⟩, ⟨.upTo 3, 2, [(0, 1)]⟩, ⟨⟨1, 4⟩, -1, [(1, -1)]⟩]
  rows := [⟨-1, 5⟩, .upTo 2]

theorem mixture_tame : mixture.Tame := by
  refine ⟨by decide, ?_, ?_⟩
  · rintro (_ | _ | r) b hb hl
    · obtain rfl := Option.some.inj hb
      decide +kernel
    · obtain rfl := Option.some.inj hb
      exact absurd hl (by decide +kernel)
    · cases hb
  · rintro (_ | _ | r) b hb hl
    · obtain rfl := Option.some.inj hb
      decide +kernel
    · obtain rfl := Option.some.inj hb
      decide +kernel
    · cases hb

theorem mixture_recovers : mixture.Stored ∧ mixture.Tame ∧ mixture.Feasible [1, 2, 4] ∧
    ∃ y, mixture.canonicalForm.program.Solves y ∧
      recoverAll mixture.canonicalForm.recoveries y = .ok [1, 2, 4] := by
  have hs : mixture.Stored := by decide
  have hf : mixture.Feasible [1, 2, 4] := by
    refine ⟨rfl, ?_, ?_⟩
    · rintro (_ | _ | _ | j) c hc
      · obtain rfl := Option.some.inj hc
        exact ⟨.inl (by decide +kernel), .inl (by decide +kernel)⟩
      · obtain rfl := Option.some.inj hc
        exact ⟨.inl (by decide +kernel), .inr (by decide +kernel)⟩
      · obtain rfl := Option.some.inj hc
        exact ⟨.inr (by decide +kernel), .inr (by decide +kernel)⟩
      · cases hc
    · rintro (_ | _ | r) b hb
      · obtain rfl := Option.some.inj hb
        exact ⟨.inr (by decide +kernel), .inr (by decide +kernel)⟩
      · obtain rfl := Option.some.inj hb
        exact ⟨.inl (by decide +kernel), .inr (by decide +kernel)⟩
      · cases hb
  exact ⟨hs, mixture_tame, hf, (canonicalForm_correct hs mixture_tame).2.1 _ hf⟩

end Program
end LinearProgramming
