/-!
# Sparse columns

The entries of a column that are stored, each with its row, in the order of the rows. The stored
value at a row is looked up with `List.lookup`.

* `lookup_put`, `lookup_erase`: writing a cell changes that cell only.
* `lookup_eq_some_iff`: entries in order have no two values at a row.
* `lookup_map`, `lookup_filterMap`: values that are rewritten, and rows that are renumbered.
* `ordered_put`, `ordered_erase`: writing keeps the order.
-/

namespace LinearProgramming

/-- The stored entries of a column, by increasing row. -/
abbrev Entries (α : Type) := List (Nat × α)

namespace Entries

variable {α : Type}

/-- Stores a value at a row, in place of the one there. -/
def put (row : Nat) (value : α) : Entries α → Entries α
  | [] => [(row, value)]
  | (r, v) :: rest =>
    if row < r then (row, value) :: (r, v) :: rest
    else if row = r then (row, value) :: rest
    else (r, v) :: put row value rest

/-- Forgets the value at a row. -/
def erase (row : Nat) (entries : Entries α) : Entries α := entries.filter fun e => e.1 != row

/-- Applies a function to every stored value. -/
def mapValues (f : Nat → α → α) (entries : Entries α) : Entries α :=
  entries.map fun e => (e.1, f e.1 e.2)

/-- Rows strictly increase along the entries. -/
def Ordered (entries : Entries α) : Prop := entries.Pairwise fun a b => a.1 < b.1

instance (entries : Entries α) : Decidable entries.Ordered :=
  inferInstanceAs (Decidable (entries.Pairwise fun a b => a.1 < b.1))

/-! ## Reading -/

theorem lookup_cons (i row : Nat) (value : α) (rest : Entries α) :
    List.lookup i ((row, value) :: rest) = if i = row then some value else rest.lookup i := by
  by_cases h : i = row
  · rw [h, List.lookup_cons_self, if_pos rfl]
  · rw [List.lookup_cons, beq_false_of_ne h, if_neg h]

theorem lookup_eq_none {row : Nat} {entries : Entries α} (h : ∀ e ∈ entries, e.1 ≠ row) :
    entries.lookup row = none :=
  List.lookup_eq_none_iff.mpr fun e he => bne_iff_ne.mpr (h e he).symm

theorem mem_of_lookup {row : Nat} {value : α} {entries : Entries α}
    (h : entries.lookup row = some value) : (row, value) ∈ entries := by
  obtain ⟨before, after, rfl, -⟩ := List.lookup_eq_some_iff.mp h
  exact List.mem_append_right _ List.mem_cons_self

theorem lookup_eq_some_iff {row : Nat} {value : α} {entries : Entries α} (h : entries.Ordered) :
    entries.lookup row = some value ↔ (row, value) ∈ entries := by
  refine ⟨mem_of_lookup, fun hmem => ?_⟩
  obtain ⟨before, after, rfl⟩ := List.append_of_mem hmem
  have hbefore := (List.pairwise_append.mp h).2.2
  exact List.lookup_eq_some_iff.mpr ⟨before, after, rfl, fun e he =>
    bne_iff_ne.mpr (Nat.ne_of_gt (hbefore e he _ List.mem_cons_self))⟩

theorem lookup_map {β : Type} (f : Nat → α → β) (row : Nat) (entries : Entries α) :
    List.lookup row (entries.map fun (r, v) => (r, f r v)) = (entries.lookup row).map (f row) := by
  induction entries with
  | nil => rfl
  | cons e rest ih =>
    obtain ⟨r, v⟩ := e
    rw [List.map_cons, lookup_cons, lookup_cons, ih]
    split
    · next h => rw [h, Option.map_some]
    · rfl

@[simp]
theorem lookup_mapValues (f : Nat → α → α) (row : Nat) (entries : Entries α) :
    (entries.mapValues f).lookup row = (entries.lookup row).map (f row) := lookup_map f row entries

/-- Rows are renumbered, those without a new number left out. -/
theorem lookup_filterMap {f : Nat → Option Nat} (hf : ∀ r q k, f r = some k → f q = some k → r = q)
    {r k : Nat} (hr : f r = some k) (entries : Entries α) :
    List.lookup k (entries.filterMap fun e => (f e.1).map fun q => (q, e.2)) =
      entries.lookup r := by
  induction entries with
  | nil => rfl
  | cons e rest ih =>
    obtain ⟨q, v⟩ := e
    by_cases hq : r = q
    · subst hq
      simp [hr]
    · rw [lookup_cons, if_neg hq]
      cases hfq : f q with
      | none => simpa [hfq] using ih
      | some l =>
        have hne : k ≠ l := fun e => hq (hf r q k hr (e ▸ hfq))
        simpa [hfq, lookup_cons, hne] using ih

/-! ## Writing -/

theorem lookup_put (row i : Nat) (value : α) {entries : Entries α} (h : entries.Ordered) :
    (put row value entries).lookup i = if i = row then some value else entries.lookup i := by
  induction entries with
  | nil => simp [put, lookup_cons]
  | cons e rest ih =>
    obtain ⟨r, v⟩ := e
    have hr := List.pairwise_cons.1 h
    have ih := ih hr.2
    unfold put
    split
    · rw [lookup_cons]
    · split
      · next hrow => subst hrow; by_cases hi : i = row <;> simp [lookup_cons, hi]
      · next hrow =>
        simp only [lookup_cons, ih]
        by_cases hi : i = r
        · subst hi; simp [Ne.symm hrow]
        · simp [hi]

theorem lookup_erase (row i : Nat) (entries : Entries α) :
    (erase row entries).lookup i = if i = row then none else entries.lookup i := by
  induction entries with
  | nil => simp [erase]
  | cons e rest ih =>
    obtain ⟨r, v⟩ := e
    simp only [erase, List.filter_cons] at ih ⊢
    by_cases hr : r = row
    · subst hr
      by_cases hi : i = r
      · subst hi; simpa using ih
      · simpa [lookup_cons, hi] using ih
    · by_cases hi : i = r
      · subst hi; simp [hr]
      · simp [lookup_cons, hr, hi, ih]

/-- What is stored after a write was stored before, or is what was written. -/
theorem mem_put {row : Nat} {value : α} {entries : Entries α} {e : Nat × α}
    (h : e ∈ put row value entries) : e = (row, value) ∨ e ∈ entries := by
  induction entries with
  | nil => simpa [put] using h
  | cons first rest ih =>
    obtain ⟨r, v⟩ := first
    unfold put at h
    split at h
    · exact List.mem_cons.1 h
    · split at h
      · rcases List.mem_cons.1 h with he | he
        · exact .inl he
        · exact .inr (List.mem_cons_of_mem _ he)
      · rcases List.mem_cons.1 h with he | he
        · exact .inr (he ▸ List.mem_cons_self ..)
        · exact (ih he).imp_right (List.mem_cons_of_mem _)

theorem ordered_put (row : Nat) (value : α) {entries : Entries α} (h : entries.Ordered) :
    (put row value entries).Ordered := by
  induction entries with
  | nil => simp [put, Ordered]
  | cons first rest ih =>
    obtain ⟨r, v⟩ := first
    obtain ⟨above, tail⟩ := List.pairwise_cons.1 h
    unfold put
    split
    · next low =>
      refine List.pairwise_cons.2 ⟨fun e he => ?_, h⟩
      rcases List.mem_cons.1 he with rfl | he
      · exact low
      · exact Nat.lt_trans low (above e he)
    · next high =>
      split
      · next same => exact List.pairwise_cons.2 ⟨fun e he => same ▸ above e he, tail⟩
      · next other =>
        refine List.pairwise_cons.2 ⟨fun e he => ?_, ih tail⟩
        rcases mem_put he with rfl | he
        · show r < row
          omega
        · exact above e he

theorem ordered_erase (row : Nat) {entries : Entries α} (h : entries.Ordered) :
    (erase row entries).Ordered := h.filter _

theorem ordered_map {β : Type} (f : Nat → α → β) {entries : Entries α} (h : entries.Ordered) :
    Ordered (entries.map fun (r, v) => (r, f r v)) := List.pairwise_map.mpr h

theorem ordered_mapValues (f : Nat → α → α) {entries : Entries α} (h : entries.Ordered) :
    (entries.mapValues f).Ordered := ordered_map f h

theorem ordered_concat {row : Nat} {value : α} {entries : Entries α} (h : entries.Ordered)
    (hr : ∀ e ∈ entries, e.1 < row) : Ordered (entries ++ [(row, value)]) := by
  refine List.pairwise_append.mpr ⟨h, List.pairwise_singleton .., ?_⟩
  intro e he f hf
  rw [List.mem_singleton.mp hf]
  exact hr e he

end Entries

end LinearProgramming
