import LinearProgramming.Proofs.Coefficients
import LinearProgramming.Proofs.FreeRows

/-!
# Coefficients and their history

A coefficient that becomes zero is forgotten, and is there again when something is added to it. Over
all commands it is still the last value it was set to and what was added since:

* `Command.base?`, `Command.increment`: what a command makes of a cell;
* `Command.outline`: what it makes of everything else;
* `Model.apply_cell`, `Model.apply_bare`: one command, then `Model.after_cell`, `Model.after_bare`:
  any number of them;
* `Model.coefficients_follow_history`: the coefficients and their listing, after any commands.
-/

namespace LinearProgramming

/-! ## Commands -/

namespace Command

/-- The value that a cell has after the command whatever it was before, if there is one. -/
def base? (r v : Nat) : Command Rat → Option Rat
  | .setCoefficient i w x => if i = r ∧ w = v then some x else none
  | .loadDense a _ _ _ _ => some (if r < a.rows ∧ v < a.columns then a.entry r v else 0)
  | .loadTriplets a _ _ _ _ => some (a.sumAt r v)
  | .clear => some 0
  | _ => none

/-- What the command adds to a cell. -/
def increment (r v : Nat) : Command Rat → Rat
  | .addCoefficient i w x => if i = r ∧ w = v then x else 0
  | _ => 0

/-- The command adds to a cell. -/
def adds : Command Rat → Bool
  | .addCoefficient .. => true
  | _ => false

/-- The command writes the cell at a position, and no other. -/
def Writes (r v : Nat) (c : Command Rat) : Prop :=
  ∃ x, c = .setCoefficient r v x ∨ c = .addCoefficient r v x

/-- What a command that is carried out makes of a program apart from its coefficients. -/
def outline (p : Program Rat) : Command Rat → Program Rat
  | .setSense s => { p with sense := s }
  | .addVariables n b => p.addVariables n b
  | .addRow b => p.pushRow b
  | .setCost v x => { p with columns := p.columns.modify v fun c => { c with cost := x } }
  | .addCost v x => { p with columns := p.columns.modify v fun c => { c with cost := c.cost + x } }
  | .setCoefficient .. | .addCoefficient .. | .solve _ => p
  | .loadDense _ constants costs relations nonnegative
  | .loadTriplets _ constants costs relations nonnegative =>
    .frame p.sense constants costs relations nonnegative
  | .clear => .empty p.sense

/-- What commands make of a cell: the last value that it was given, or else the one from before,
and everything that was added since. -/
def recorded (r v : Nat) (before : Rat) (cs : List (Command Rat)) : Rat :=
  (cs.reverse.findSome? (base? r v)).getD before +
    ((cs.reverse.takeWhile fun c => (c.base? r v).isNone).map (increment r v)).sum

theorem recorded_concat (r v : Nat) (before : Rat) (cs : List (Command Rat)) (c : Command Rat) :
    recorded r v before (cs ++ [c]) =
      (c.base? r v).getD (recorded r v before cs + c.increment r v) := by
  unfold recorded
  rw [List.reverse_concat, List.findSome?_cons, List.takeWhile_cons]
  cases c.base? r v with
  | none =>
    simp only [Option.isNone_none, if_true, List.map_cons, List.sum_cons, Option.getD_none]
    ring
  | some x => simp

theorem increment_eq_zero {c : Command Rat} (h : c.adds = false) (r v : Nat) :
    c.increment r v = 0 := by
  cases c <;> first | rfl | cases h

theorem outline_adds {c : Command Rat} (h : c.adds = true) (p : Program Rat) : c.outline p = p := by
  cases c <;> first | rfl | cases h

/-- Where nothing gives a cell a value, only the sum of what is added counts. -/
theorem recorded_of_none {r v : Nat} {cs : List (Command Rat)} (h : ∀ c ∈ cs, c.base? r v = none)
    (before : Rat) :
    recorded r v before cs = before + ((cs.filter adds).map (increment r v)).sum := by
  induction cs using List.reverseRecOn with
  | nil => simp [recorded]
  | append_singleton cs c ih =>
    have hc := h c (by simp)
    rw [recorded_concat, hc, ih fun d hd => h d (List.mem_append_left _ hd), Option.getD_none]
    rw [List.filter_append, List.map_append, List.sum_append]
    cases ha : c.adds
    · simp [ha, increment_eq_zero ha]
    · simp [ha, add_assoc]

end Command

/-! ## One command -/

namespace Model

open Command Program

variable {e : Engines} {m n : Model Rat} {c : Command Rat}

theorem edit_ok {f : Program Rat → Except Rejection (Program Rat)} (h : m.edit f = .ok n) :
    f m.program = .ok n.program := by
  unfold edit at h
  cases hq : f m.program with
  | error r =>
    rw [hq] at h
    cases h
  | ok q =>
    rw [bind_eq hq] at h
    cases h
    rfl

theorem load_ok {f : Sense → Except Rejection (Program Rat)} (h : m.load f = .ok n) :
    f m.program.sense = .ok n.program := by
  unfold load at h
  cases hq : f m.program.sense with
  | error r =>
    rw [hq] at h
    cases h
  | ok q =>
    rw [bind_eq hq] at h
    cases h
    rfl

/-- A command that is carried out gives every cell its value, or adds to it. -/
theorem apply_cell (hm : m.program.Stored) (h : m.apply e c = .ok n) (r v : Nat) :
    n.program.cell r v = (c.base? r v).getD (m.program.cell r v + c.increment r v) := by
  cases c with
  | setSense s =>
    cases h
    exact (add_zero _).symm
  | addVariables k b =>
    cases h
    simp only [base?, increment, add_zero, Option.getD_none, cell, Program.addVariables,
      List.getElem?_append, List.getElem?_replicate]
    split
    · rfl
    · next hv =>
      rw [List.getElem?_eq_none (Nat.le_of_not_lt hv)]
      split <;> rfl
  | addRow b =>
    have hq := edit_ok (f := fun p => p.addRow b) h
    unfold Program.addRow at hq
    split at hq
    · cases hq
    · rw [← Except.ok.inj hq]
      exact (add_zero _).symm
  | setCost w x =>
    have hq := edit_ok (f := fun p => p.setCost w x) h
    rw [updateColumn_cell (f := fun c => { c with cost := x }) (g := fun _ y => y)
      (fun _ _ _ => rfl) hq, ite_self]
    exact (add_zero _).symm
  | addCost w x =>
    have hq := edit_ok (f := fun p => p.addCost w x) h
    rw [updateColumn_cell (f := fun c => { c with cost := c.cost + x }) (g := fun _ y => y)
      (fun _ _ _ => rfl) hq, ite_self]
    exact (add_zero _).symm
  | setCoefficient i w x =>
    obtain ⟨-, hq⟩ := updateCell_ok (edit_ok (f := fun p => p.setCoefficient i w x) h)
    rw [updateColumn_cell (g := fun k y => if k = i then x else y)
      (fun c hc k => Column.coefficient_set (hm c hc).1 i k x) hq]
    simp only [base?, increment, add_zero, eq_comm (a := r), eq_comm (a := v)]
    by_cases hw : w = v <;> by_cases hi : i = r <;> simp [hw, hi]
  | addCoefficient i w x =>
    obtain ⟨-, hq⟩ := updateCell_ok (edit_ok (f := fun p => p.addCoefficient i w x) h)
    rw [updateColumn_cell (g := fun k y => y + if k = i then x else 0)
      (fun c hc k => Column.coefficient_add (hm c hc).1 i k x) hq]
    simp only [base?, increment, eq_comm (a := r), eq_comm (a := v)]
    by_cases hw : w = v <;> by_cases hi : i = r <;> simp [hw, hi]
  | loadDense a constants costs relations nonnegative =>
    have hq := load_ok (f := fun s => ofDense s a constants costs relations nonnegative) h
    exact ofDense_cell hq r v
  | loadTriplets a constants costs relations nonnegative =>
    have hq := load_ok (f := fun s => ofTriplets s a constants costs relations nonnegative) h
    exact ofTriplets_cell hq r v
  | clear =>
    cases h
    rfl
  | solve s =>
    cases h
    simp [base?, increment]

theorem apply_bare (h : m.apply e c = .ok n) : n.program.bare = c.outline m.program.bare := by
  cases c with
  | setSense s =>
    cases h
    rfl
  | addVariables k b =>
    cases h
    simp [bare, outline, Program.addVariables, Column.new]
  | addRow b =>
    have hq := edit_ok (f := fun p => p.addRow b) h
    unfold Program.addRow at hq
    split at hq
    · cases hq
    · rw [← Except.ok.inj hq]
      rfl
  | setCost w x =>
    exact updateColumn_bare (fun _ => rfl) (edit_ok (f := fun p => p.setCost w x) h)
  | addCost w x =>
    exact updateColumn_bare (fun _ => rfl) (edit_ok (f := fun p => p.addCost w x) h)
  | setCoefficient i w x =>
    obtain ⟨-, hq⟩ := updateCell_ok (edit_ok (f := fun p => p.setCoefficient i w x) h)
    rw [updateColumn_bare (f := Column.set i x) (g := id) (fun _ => rfl) hq, List.modify_id]
    rfl
  | addCoefficient i w x =>
    obtain ⟨-, hq⟩ := updateCell_ok (edit_ok (f := fun p => p.addCoefficient i w x) h)
    rw [updateColumn_bare (g := id) (fun c => ?_) hq, List.modify_id]
    · rfl
    · unfold Column.add
      split <;> rfl
  | loadDense a constants costs relations nonnegative =>
    have hq := load_ok (f := fun s => ofDense s a constants costs relations nonnegative) h
    exact ofDense_bare hq
  | loadTriplets a constants costs relations nonnegative =>
    have hq := load_ok (f := fun s => ofTriplets s a constants costs relations nonnegative) h
    exact ofTriplets_bare hq
  | clear =>
    cases h
    rfl
  | solve s =>
    cases h
    simp [outline]

/-! ## Any number of commands -/

/-- The commands of a list that are carried out. -/
def accepted (e : Engines) (m : Model Rat) : List (Command Rat) → List (Command Rat)
  | [] => []
  | c :: cs =>
    let next := m.perform e c
    if next.2.isNone then c :: accepted e next.1 cs else accepted e next.1 cs

theorem accepted_concat (e : Engines) (m : Model Rat) (cs : List (Command Rat)) (c : Command Rat) :
    accepted e m (cs ++ [c]) =
      accepted e m cs ++ if ((m.after e cs).perform e c).2.isNone then [c] else [] := by
  induction cs generalizing m with
  | nil => rfl
  | cons d rest ih =>
    simp only [List.cons_append, accepted]
    rw [ih]
    split <;> rfl

/-- A property that commands that are carried out keep holds after any commands. -/
theorem after_induction {P : List (Command Rat) → Model Rat → Prop} (e : Engines) (m : Model Rat)
    (start : P [] m)
    (step : ∀ cs c n, P (accepted e m cs) (m.after e cs) → (m.after e cs).apply e c = .ok n →
      P (accepted e m cs ++ [c]) n) (cs : List (Command Rat)) :
    P (accepted e m cs) (m.after e cs) := by
  induction cs using List.reverseRecOn with
  | nil => exact start
  | append_singleton cs c ih =>
    rw [accepted_concat, after_concat]
    unfold perform
    cases h : (m.after e cs).apply e c with
    | error r => simpa using ih
    | ok n => simpa using step cs c n ih h

theorem after_stored (hm : m.program.Stored) (cs : List (Command Rat)) :
    (m.after e cs).program.Stored := by
  induction cs using List.reverseRecOn with
  | nil => exact hm
  | append_singleton cs c ih =>
    rw [after_concat]
    exact perform_holds Column.within_lasting e ih c

/-- Every cell is what the commands that were carried out make of it. -/
theorem after_cell (hm : m.program.Stored) (cs : List (Command Rat)) (r v : Nat) :
    (m.after e cs).program.cell r v = recorded r v (m.program.cell r v) (accepted e m cs) := by
  apply after_induction (P := fun cs n =>
    n.program.cell r v = recorded r v (m.program.cell r v) cs) e m
  · simp [recorded]
  · intro cs c n ih h
    rw [apply_cell (after_stored hm cs) h, recorded_concat, ih]

theorem after_bare (cs : List (Command Rat)) : (m.after e cs).program.bare =
    (accepted e m cs).foldl (fun p c => c.outline p) m.program.bare := by
  apply after_induction (P := fun cs n =>
    n.program.bare = cs.foldl (fun p c => c.outline p) m.program.bare) e m
  · rfl
  · intro cs c n ih h
    rw [apply_bare h, List.foldl_append, ← ih]
    rfl

/-! ## The store -/

/-- A command on a cell changes nothing else. -/
theorem perform_differsAt (hm : m.program.Stored) {r v : Nat} (hc : c.Writes r v) :
    DiffersAt r v m.program (m.perform e c).1.program := by
  unfold perform
  cases h : m.apply e c with
  | error f => exact ⟨rfl, rfl, rfl, rfl, fun _ _ _ => rfl⟩
  | ok n =>
    obtain ⟨x, rfl | rfl⟩ := hc
    all_goals
      refine .of_bare (apply_bare h) fun i w hne => ?_
      rw [apply_cell hm h]
      simp [base?, increment, show ¬ (r = i ∧ v = w) from fun ⟨hi, hw⟩ => hne ⟨hi.symm, hw.symm⟩]

/-- The order of additions does not matter as long as no cell is given a value. -/
theorem after_eq_of_perm (hm : Reachable e m) {cs ds : List (Command Rat)}
    (hbase : ∀ c ∈ accepted e m cs, ∀ r v, c.base? r v = none)
    (hrest : (accepted e m cs).filter (fun c => !c.adds) =
      (accepted e m ds).filter fun c => !c.adds)
    (hadds : ((accepted e m cs).filter adds).Perm ((accepted e m ds).filter adds)) :
    (m.after e cs).program = (m.after e ds).program := by
  -- the commands that are not additions are the same, so none of those gives a value either
  have hbase' : ∀ c ∈ accepted e m ds, ∀ r v, c.base? r v = none := by
    intro c hc r v
    cases ha : c.adds
    · have hmem : c ∈ (accepted e m cs).filter fun c => !c.adds := by
        rw [hrest]
        exact List.mem_filter.mpr ⟨hc, by simp [ha]⟩
      exact hbase c (List.mem_filter.mp hmem).1 r v
    · cases c <;> first | rfl | cases ha
  have outlines : ∀ cs, (m.after e cs).program.bare =
      ((accepted e m cs).filter fun c => !c.adds).foldl (fun p c => c.outline p)
        m.program.bare := by
    intro cs
    rw [after_bare, List.foldl_filter]
    refine List.foldl_ext _ _ _ fun p c _ => ?_
    cases ha : c.adds
    · rfl
    · exact outline_adds ha p
  refine eq_of_cell (hm.after cs).stored (hm.after ds).stored (hm.after cs).sparse
    (hm.after ds).sparse (by rw [outlines, outlines, hrest]) fun r v => ?_
  rw [after_cell hm.stored, after_cell hm.stored, recorded_of_none fun c hc => hbase c hc r v,
    recorded_of_none fun c hc => hbase' c hc r v, (hadds.map _).sum_eq]

/-- Whatever the commands: a coefficient is the last value that it was given and what was added to
it since, a command on a cell changes nothing else, the nonzero coefficients are listed once, by
variable and then by row, and additions without a value given between them may change places. -/
theorem coefficients_follow_history (e : Engines) :
    (∀ (sense : Sense) (cs : List (Command Rat)) (r v : Nat),
      r < ((new sense).after e cs).program.rowCount →
      v < ((new sense).after e cs).program.variableCount →
      ((new sense).after e cs).program.coefficient r v =
        .ok (recorded r v 0 (accepted e (new sense) cs))) ∧
    (∀ m, Reachable e m → ∀ (r v : Nat) (c : Command Rat), c.Writes r v →
      DiffersAt r v m.program (m.perform e c).1.program) ∧
    (∀ m : Model Rat, Reachable e m →
      (∀ r v x, (r, v, x) ∈ m.program.coefficients ↔ x ≠ 0 ∧ m.program.coefficient r v = .ok x) ∧
      m.program.coefficients.Pairwise fun a b => a.2.1 < b.2.1 ∨ (a.2.1 = b.2.1 ∧ a.1 < b.1)) ∧
    ∀ m, Reachable e m → ∀ cs ds : List (Command Rat),
      (∀ c ∈ accepted e m cs, ∀ r v, c.base? r v = none) →
      (accepted e m cs).filter (fun c => !c.adds) =
        (accepted e m ds).filter (fun c => !c.adds) →
      ((accepted e m cs).filter adds).Perm ((accepted e m ds).filter adds) →
      (m.after e cs).program = (m.after e ds).program := by
  refine ⟨?_, fun m hm r v c => perform_differsAt hm.stored,
    fun m hm => ⟨mem_coefficients_iff hm.stored hm.sparse, coefficients_sorted hm.stored⟩,
    fun m hm cs ds => after_eq_of_perm hm⟩
  intro sense cs r v hr hv
  rw [coefficient_eq_ok hr hv, after_cell (Reachable.new (e := e) sense).stored]
  rfl

/-- A coefficient that is set to 2, vanishes, and comes back; one that is refused. -/
def comings : List (Command Rat) :=
  [.addVariables 2 .nonnegative, .addRow ⟨0, 1⟩, .setCoefficient 0 0 2, .addCoefficient 0 0 (-2),
    .addCoefficient 0 2 1, .addCoefficient 0 0 3]

/-- What is added afterwards may be added in another order. -/
theorem comings_follow : recorded 0 0 0 (comings.eraseIdx 4) = 3 ∧ ∀ e : Engines,
    ((new .minimize).after e comings).program.coefficient 0 0 = .ok 3 ∧
    (((new .minimize).after e comings).after e
      [.addCoefficient 0 0 1, .setCost 0 1, .addCoefficient 0 1 2]).program =
    (((new .minimize).after e comings).after e
      [.addCoefficient 0 1 2, .setCost 0 1, .addCoefficient 0 0 1]).program := by
  have hrecorded : recorded 0 0 0 (comings.eraseIdx 4) = 3 := by decide +kernel
  refine ⟨hrecorded, fun e => ?_⟩
  obtain ⟨hcell, -, -, horder⟩ := coefficients_follow_history e
  have hm : (new .minimize).after e comings =
      ofProgram ⟨.minimize, [⟨.nonnegative, 0, [(0, 3)]⟩, .new .nonnegative], [⟨0, 1⟩]⟩ := by
    rw [after_engines (by simp [comings, Command.Solves]) e ⟨0, fun _ _ => .failed⟩]
    decide +kernel
  constructor
  · have haccepted : accepted e (new .minimize) comings = comings.eraseIdx 4 := rfl
    have hvalue := hcell .minimize comings 0 0 (by rw [hm]; decide) (by rw [hm]; decide)
    rw [hvalue, haccepted, hrecorded]
  · have hreachable := (Reachable.new (e := e) .minimize).after comings
    rw [hm] at hreachable ⊢
    refine horder _ hreachable _ _ ?_ rfl (.swap ..)
    change ∀ c ∈ ([.addCoefficient 0 0 1, .setCost 0 1, .addCoefficient 0 1 2] :
      List (Command Rat)), ∀ r v, c.base? r v = none
    simp [base?]

end Model

end LinearProgramming
