import LinearProgramming.Proofs.Coefficients
import LinearProgramming.Proofs.Results
import LinearProgramming.Store

/-!
# Writes to a model in vectors

* `Model.program_store`: the vectors of a model hold its program;
* `Edit.needVariable_run`, `Edit.needRow_run`: what is asked for before a write;
* `Edit.updateCost_run`, `Edit.accumulate_run`, `Edit.pushRow_run`, `Edit.makeVariables_run`: what
  the writes make of the vectors of a model.
-/

namespace LinearProgramming

/-- Adds a variable with its cost and its coefficients. -/
def Program.pushColumn {α : Type} (p : Program α) (c : Column α) : Program α :=
  { p with columns := p.columns ++ [c] }

namespace Model

variable {α : Type}

/-- The model with another program; the last result stays. -/
def withProgram (m : Model α) (q : Program α) : Model α := { m with program := q }

def setColumn (m : Model α) (v : Nat) (c : Column α) : Model α :=
  m.withProgram { m.program with columns := m.program.columns.set v c }

end Model

/-! ## The stored program -/

/-- Ordered cells are found again row by row. -/
theorem Entries.filterMap_range {α : Type} {n : Nat} {es : Entries α} (h : es.Ordered)
    (hn : ∀ e ∈ es, e.1 < n) :
    ((List.range n).filterMap fun r => (es.lookup r).map fun x => (r, x)) = es := by
  have hsorted : Entries.Ordered ((List.range n).filterMap fun r =>
      (es.lookup r).map fun x => (r, x)) := by
    refine (List.pairwise_lt_range (n := n)).filterMap _ ?_
    intro r q hrq a ha b hb
    obtain ⟨x, -, rfl⟩ := Option.map_eq_some_iff.mp ha
    obtain ⟨y, -, rfl⟩ := Option.map_eq_some_iff.mp hb
    exact hrq
  refine Entries.eq_of_mem_iff hsorted h fun e => ?_
  obtain ⟨r, x⟩ := e
  simp only [List.mem_filterMap, List.mem_range, Option.map_eq_some_iff, Prod.mk.injEq]
  constructor
  · rintro ⟨q, -, y, hy, rfl, rfl⟩
    exact (Entries.lookup_eq_some_iff h).mp hy
  · intro he
    exact ⟨r, hn _ he, x, (Entries.lookup_eq_some_iff h).mpr he, rfl, rfl⟩

namespace Model

variable {α : Type} {m : Model α}

theorem entries_store (h : m.program.Stored) {v : Nat} {c : Column α}
    (hc : m.program.columns[v]? = some c) : m.store.entries v = c.entries := by
  have hw := h c (List.mem_of_getElem? hc)
  simp only [Store.entries, store, hc, Option.bind_some, List.length_map]
  exact Entries.filterMap_range hw.1 hw.2

/-- The vectors hold all of the program. -/
theorem program_store (h : m.program.Stored) : m.store.program = m.program := by
  have hcolumns : m.store.program.columns = m.program.columns := by
    apply List.ext_getElem
    · simp [Store.program, store]
    · intro v h₁ h₂
      have hentries := entries_store h (List.getElem?_eq_getElem h₂)
      simp only [Store.program, List.getElem_map, List.getElem_zipIdx, List.getElem_zip,
        Nat.zero_add, hentries]
      simp [store]
  have hrows : m.store.program.rows = m.program.rows := by
    simp [Store.program, store]
  calc m.store.program = ⟨m.program.sense, m.store.program.columns, m.store.program.rows⟩ := rfl
    _ = m.program := by rw [hcolumns, hrows]

end Model

/-! ## Writes -/

theorem Column.lookup_set {α : Type} [Scalar α] {c : Column α} (h : c.entries.Ordered) (r q : Nat)
    (x : α) : (c.set r x).entries.lookup q =
      if q = r then (if Scalar.near x 0 then none else some x) else c.entries.lookup q := by
  unfold Column.set
  cases Scalar.near x 0 with
  | true => exact Entries.lookup_erase r q c.entries
  | false => exact Entries.lookup_put r q x h

namespace Edit

variable {α β γ : Type} {s t : Store α}

theorem run_bind {x : Edit α β} {b : β} (h : x.run s = .ok b t) (f : β → Edit α γ) :
    (x >>= f).run s = (f b).run t := by
  show EStateM.bind x f s = f b t
  unfold EStateM.bind
  rw [show x s = .ok b t from h]

theorem run_bind_error {x : Edit α β} {r : Failure} (h : x.run s = .error r t)
    (f : β → Edit α γ) : (x >>= f).run s = .error r t := by
  show EStateM.bind x f s = .error r t
  unfold EStateM.bind
  rw [show x s = .error r t from h]

variable {m : Model α} {v r : Nat}

theorem needVariable_run (m : Model α) (v : Nat) : (needVariable v).run m.store =
    if v < m.program.variableCount then .ok () m.store
    else .error (.rejected (.unknownVariable v)) m.store := by
  have hlength : m.store.lower.length = m.program.variableCount := List.length_map _
  show (if v < m.store.lower.length then pure () else throw _ : Edit α Unit).run m.store = _
  rw [hlength]
  split <;> rfl

theorem needRow_run (m : Model α) (r : Nat) : (needRow r).run m.store =
    if r < m.program.rowCount then .ok () m.store
    else .error (.rejected (.unknownRow r)) m.store := by
  have hlength : m.store.rowLower.length = m.program.rowCount := List.length_map _
  show (if r < m.store.rowLower.length then pure () else throw _ : Edit α Unit).run m.store = _
  rw [hlength]
  split <;> rfl

theorem map_set_eq {f : β → γ} {xs : List β} {c d : β} (hc : xs[v]? = some c) (h : f d = f c) :
    (xs.set v d).map f = xs.map f := by
  obtain ⟨hv, rfl⟩ := List.getElem?_eq_some_iff.mp hc
  rw [List.map_set, h, ← List.map_set, List.set_getElem_self]

/-- Changing a variable other than in its bounds changes its cost and its coefficients. -/
theorem store_setColumn {c d : Column α} (hc : m.program.columns[v]? = some c)
    (hd : d.bounds = c.bounds) :
    (m.setColumn v d).store =
      { m.store with
        costs := m.store.costs.set v d.cost
        cells := fun w r => if w = v then d.entries.lookup r else m.store.cells w r } := by
  obtain ⟨hv, -⟩ := List.getElem?_eq_some_iff.mp hc
  have hlower := map_set_eq (f := fun c : Column α => c.bounds.lower) hc (congrArg _ hd)
  have hupper := map_set_eq (f := fun c : Column α => c.bounds.upper) hc (congrArg _ hd)
  simp only [Model.setColumn, Model.withProgram, Model.store, hlower, hupper, List.map_set,
    Store.mk.injEq, true_and, and_true]
  funext w r
  by_cases hw : w = v
  · subst hw
    simp [hv]
  · simp [hw, List.getElem?_set_ne (Ne.symm hw)]

theorem updateCost_run {c : Column α} (hc : m.program.columns[v]? = some c) (f : α → α) :
    (updateCost v f).run m.store =
      .ok () (m.setColumn v { c with cost := f c.cost }).store := by
  have hcost : m.store.costs[v]? = some c.cost := by simp [Model.store, hc]
  have hassign : (do assign m.store.costs v (f (← fetch m.store.costs v)) : Except Fault (List α)) =
      .ok (m.store.costs.set v (f c.cost)) := by
    rw [fetch, hcost]
    exact if_pos (List.getElem?_eq_some_iff.mp hcost).1
  have hcells : (fun w r => if w = v then c.entries.lookup r else m.store.cells w r) =
      m.store.cells := by
    funext w r
    split
    · next hw => simp [Model.store, hw, hc]
    · rfl
  rw [store_setColumn (d := { c with cost := f c.cost }) hc rfl, hcells]
  show ((demand .faulted (do assign m.store.costs v (f (← fetch m.store.costs v))) >>= fun costs =>
    modify fun s => { s with costs }) : Edit α Unit).run m.store = _
  rw [hassign]
  rfl

theorem store_write {c d : Column α} {x : Option α} (hc : m.program.columns[v]? = some c)
    (hb : d.bounds = c.bounds) (hcost : d.cost = c.cost)
    (hd : ∀ q, d.entries.lookup q = if q = r then x else c.entries.lookup q) :
    m.store.write v r x =
      (m.setColumn v d).store := by
  have hcosts : m.store.costs.set v d.cost = m.store.costs := by
    have hset := map_set_eq (f := fun c : Column α => c.cost) hc hcost
    rwa [List.map_set] at hset
  rw [store_setColumn hc hb, hcosts, Store.write]
  congr 1
  funext w q
  by_cases hw : w = v
  · subst hw
    simp [hd, Model.store, hc]
  · simp [hw]

@[simp]
theorem write_write (s : Store α) (v r : Nat) (x y : Option α) :
    (s.write v r x).write v r y = s.write v r y := by
  simp only [Store.write, Store.mk.injEq, true_and, and_true]
  funext w q
  split <;> rfl

theorem pushRow_run (m : Model α) (b : Bounds α) :
    (pushRow b).run m.store = .ok () (m.withProgram (m.program.pushRow b)).store := by
  have hlower : (m.program.rows ++ [b]).map (fun b => b.lower) = m.store.rowLower ++ [b.lower] :=
    List.map_append
  have hupper : (m.program.rows ++ [b]).map (fun b => b.upper) = m.store.rowUpper ++ [b.upper] :=
    List.map_append
  simp only [Model.withProgram, Program.pushRow, Model.store, hlower, hupper]
  rfl

/-- A new column has no coefficients. -/
theorem cells_append_new (columns : List (Column α)) (b : Bounds α) (cost : α) (v r : Nat) :
    ((columns ++ [⟨b, cost, []⟩])[v]?).bind (fun c => c.entries.lookup r) =
      (columns[v]?).bind fun c => c.entries.lookup r := by
  rcases Nat.lt_trichotomy v columns.length with h | rfl | h
  · rw [List.getElem?_append_left h]
  · simp
  · have hlength : (columns ++ [(⟨b, cost, []⟩ : Column α)]).length ≤ v := by
      rw [List.length_append]
      exact h
    rw [List.getElem?_eq_none hlength, List.getElem?_eq_none h.le]

variable [Scalar α]

/-- The coefficient is written as the column says. -/
theorem store_write_set (h : m.program.Stored) {c : Column α} (hc : m.program.columns[v]? = some c)
    (r : Nat) (x : α) :
    m.store.write v r (if Scalar.near x 0 then none else some x) =
      (m.setColumn v (c.set r x)).store :=
  store_write hc rfl rfl fun q => Column.lookup_set (h c (List.mem_of_getElem? hc)).1 r q x

theorem accumulate_run (h : m.program.Stored) {c : Column α}
    (hc : m.program.columns[v]? = some c) (r : Nat) (x : α) :
    (accumulate r v x).run m.store = .ok () (m.setColumn v (c.add r x)).store := by
  have hcell : m.store.cells v r = c.entries.lookup r := by simp [Model.store, hc]
  cases hx : Scalar.near x 0 with
  | true =>
    have hadd : c.add r x = c := if_pos hx
    obtain ⟨hv, rfl⟩ := List.getElem?_eq_some_iff.mp hc
    have hsame : m.setColumn v (m.program.columns[v].add r x) = m := by
      rw [hadd, Model.setColumn, List.set_getElem_self]
      rfl
    rw [hsame]
    simp only [accumulate, hx, if_true]
    rfl
  | false =>
    have hadd : c.add r x = c.set r (sum (m.store.cells v r) x) := by
      rw [hcell, Column.add, hx]
      cases c.entries.lookup r <;> rfl
    rw [hadd, ← store_write_set h hc]
    simp only [accumulate, hx]
    show (if !Scalar.near (sum (m.store.cells v r) x) 0 then
      modify (·.write v r (some (sum (m.store.cells v r) x))) else pure () : Edit α Unit).run
        (m.store.write v r none) = _
    cases Scalar.near (sum (m.store.cells v r) x) 0 with
    | true => rfl
    | false => exact congrArg (EStateM.Result.ok ()) (write_write m.store v r none _)

theorem makeVariable_run (m : Model α) (b : Bounds α) : (makeVariable b).run m.store =
    .ok m.program.variableCount
      (m.withProgram (m.program.pushColumn (.new b))).store := by
  have hcells : (fun v r => ((m.program.columns ++ [Column.new b])[v]?).bind fun c =>
      c.entries.lookup r) = m.store.cells := by
    funext v r
    exact cells_append_new m.program.columns b 0 v r
  have hcount : m.store.lower.length = m.program.variableCount := List.length_map _
  show EStateM.Result.ok m.store.lower.length _ = _
  rw [hcount]
  simp only [Model.withProgram, Program.pushColumn, Model.store, hcells, List.map_append]
  rfl

theorem makeVariables_run (m : Model α) (n : Nat) (b : Bounds α) : (makeVariables n b).run m.store =
    .ok () (m.withProgram (m.program.addVariables n b)).store := by
  induction n generalizing m with
  | zero =>
    simp only [Program.addVariables, List.replicate_zero, List.append_nil]
    rfl
  | succ n ih =>
    have hfirst := run_bind (makeVariable_run m b) fun _ => makeVariables n b
    refine hfirst.trans ((ih _).trans ?_)
    simp only [Program.addVariables, Program.pushColumn, Model.withProgram, List.append_assoc,
      List.replicate_succ, List.singleton_append]

end Edit

end LinearProgramming
