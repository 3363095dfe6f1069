import LinearProgramming.Proofs.Vector

/-!
# Selected entries

* `pick`, `positions`: the entries that are kept, and where they stood;
* `pick_eq`, `coord_pick`: an entry that is kept is the one at its position;
* `sum_getD`: sums over the positions.
-/

namespace LinearProgramming.Simplex

open Finset

/-- The entries of a vector that are kept. -/
def pick {α : Type} (keep : List Bool) (xs : List α) : List α :=
  (keep.zipWith (fun k x => if k then [x] else []) xs).flatten

/-- The positions that are kept. -/
def positions (keep : List Bool) : List Nat := pick keep (List.range keep.length)

theorem select_eq_ok {α : Type} {keep : List Bool} {xs : List α} (h : keep.length = xs.length) :
    select keep xs = .ok (pick keep xs) := by
  rw [select, zipChecked_eq_ok _ _ _ h]
  rfl

theorem pick_cons {α : Type} (k : Bool) (keep : List Bool) (x : α) (xs : List α) :
    pick (k :: keep) (x :: xs) = if k then x :: pick keep xs else pick keep xs := by
  cases k <;> rfl

@[simp]
theorem pick_map {α β : Type} (f : α → β) (keep : List Bool) (xs : List α) :
    pick keep (xs.map f) = (pick keep xs).map f := by
  induction keep generalizing xs with
  | nil => rfl
  | cons k keep ih =>
    cases xs with
    | nil => rfl
    | cons x xs =>
      rw [List.map_cons, pick_cons, pick_cons, ih]
      cases k <;> rfl

theorem pick_sublist {α : Type} (keep : List Bool) (xs : List α) :
    (pick keep xs).Sublist xs := by
  induction keep generalizing xs with
  | nil => exact List.nil_sublist xs
  | cons k keep ih =>
    cases xs with
    | nil => exact List.nil_sublist []
    | cons x xs =>
      rw [pick_cons]
      cases k
      · exact (ih xs).cons x
      · exact (ih xs).cons_cons x

theorem mem_pick {α : Type} {keep : List Bool} {xs : List α} {x : α} :
    x ∈ pick keep xs ↔ ∃ i : Nat, keep[i]? = some true ∧ xs[i]? = some x := by
  induction keep generalizing xs with
  | nil => simp [pick]
  | cons k keep ih =>
    cases xs with
    | nil => simp [pick]
    | cons y xs =>
      rw [pick_cons]
      constructor
      · intro h
        by_cases hk : k = true
        · rw [if_pos hk, List.mem_cons] at h
          rcases h with rfl | h
          · exact ⟨0, by simp [hk], rfl⟩
          · obtain ⟨i, hi⟩ := ih.mp h
            exact ⟨i + 1, hi⟩
        · rw [if_neg hk] at h
          obtain ⟨i, hi⟩ := ih.mp h
          exact ⟨i + 1, hi⟩
      · rintro ⟨_ | i, hi, hx⟩
        · obtain rfl : k = true := Option.some.inj hi
          obtain rfl : y = x := Option.some.inj hx
          exact List.mem_cons_self
        · have := ih.mpr ⟨i, hi, hx⟩
          split
          · exact List.mem_cons_of_mem y this
          · exact this

/-- What is kept of a vector stands at the positions that are kept. -/
theorem pick_eq {α : Type} {keep : List Bool} {xs : List α} (h : keep.length = xs.length) (d : α) :
    pick keep xs = (positions keep).map fun k => xs.getD k d := by
  rw [positions, ← pick_map, h]
  congr 1
  apply List.ext_getElem (by simp)
  intro i hi _
  simp [hi]

@[simp]
theorem mem_positions {keep : List Bool} {k : Nat} :
    k ∈ positions keep ↔ keep[k]? = some true := by
  rw [positions, mem_pick]
  constructor
  · rintro ⟨i, hi, hk⟩
    obtain ⟨-, rfl⟩ := List.getElem?_eq_some_iff.mp hk
    simpa using hi
  · intro hk
    obtain ⟨hl, -⟩ := List.getElem?_eq_some_iff.mp hk
    exact ⟨k, hk, by simp [hl]⟩

theorem positions_sorted (keep : List Bool) : (positions keep).Pairwise (· < ·) :=
  List.Pairwise.sublist (pick_sublist keep _) List.pairwise_lt_range

theorem coord_pick {keep : List Bool} {xs : List Rat} (hl : keep.length = xs.length) {q : Nat}
    (hq : q < (positions keep).length) :
    coord (pick keep xs) q = coord xs ((positions keep).getD q 0) := by
  simp [coord, pick_eq hl 0, hq]

theorem positions_nodup (keep : List Bool) : (positions keep).Nodup :=
  (positions_sorted keep).imp fun h => h.ne

/-- A sum over the entries of a list without repetitions, where all other terms vanish. -/
theorem sum_getD {kept : List Nat} {m : Nat} (hn : kept.Nodup) (hm : ∀ k ∈ kept, k < m)
    {f : Nat → Rat} (hf : ∀ k < m, k ∉ kept → f k = 0) :
    ∑ q ∈ range kept.length, f (kept.getD q 0) = ∑ k ∈ range m, f k := by
  have injective : Set.InjOn (fun q => kept.getD q 0) (range kept.length) := by
    intro a ha b hb hab
    have ha : a < kept.length := Finset.mem_range.mp ha
    have hb : b < kept.length := Finset.mem_range.mp hb
    simp only [List.getD_eq_getElem _ _ ha, List.getD_eq_getElem _ _ hb] at hab
    exact hn.getElem_inj_iff.mp hab
  rw [← Finset.sum_image (f := f) injective]
  apply Finset.sum_subset
  · intro k hk
    obtain ⟨q, hq, rfl⟩ := Finset.mem_image.mp hk
    have hq := Finset.mem_range.mp hq
    exact Finset.mem_range.mpr (hm _ (getD_mem hq 0))
  · intro k hk hnot
    refine hf k (Finset.mem_range.mp hk) fun hmem => hnot ?_
    obtain ⟨q, hq, rfl⟩ := List.getElem_of_mem hmem
    exact Finset.mem_image.mpr ⟨q, Finset.mem_range.mpr hq, by simp [hq]⟩

end LinearProgramming.Simplex
