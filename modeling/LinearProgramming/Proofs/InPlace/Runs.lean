import LinearProgramming.Proofs.InPlace.Commands

/-!
# Runs in place

* `Store.Fits`: the vectors fit together, and no coefficient lies beyond them or is near zero;
* `Store.after_eq`: after any commands the vectors are those of the model after them;
* `Store.after_fits`: so they always fit, and an error leaves no trace but that of a solve, which
  forgets the last result.
-/

namespace LinearProgramming

namespace Store

variable {α : Type} [Scalar α]

/-- The vectors fit together, and the coefficients lie in the rows and columns. None is near
zero. -/
structure Fits (s : Store α) : Prop where
  costs : s.costs.length = s.lower.length
  upper : s.upper.length = s.lower.length
  rowUpper : s.rowUpper.length = s.rowLower.length
  inside : ∀ v r x, s.cells v r = some x → v < s.lower.length ∧ r < s.rowLower.length
  notNear : ∀ v r x, s.cells v r = some x → Scalar.near x 0 = false

theorem fits_store {m : Model α} (h : m.program.Stored) (hs : m.program.Sparse) :
    m.store.Fits := by
  have hcell : ∀ v r x, m.store.cells v r = some x →
      ∃ c, m.program.columns[v]? = some c ∧ (r, x) ∈ c.entries := by
    intro v r x hx
    obtain ⟨c, hc, hx⟩ := Option.bind_eq_some_iff.mp hx
    exact ⟨c, hc, (Entries.lookup_eq_some_iff (h c (List.mem_of_getElem? hc)).1).mp hx⟩
  refine ⟨by simp [Model.store], by simp [Model.store], by simp [Model.store], ?_, ?_⟩
  · intro v r x hx
    obtain ⟨c, hc, he⟩ := hcell v r x hx
    have hr := (h c (List.mem_of_getElem? hc)).2 _ he
    have hv := (List.getElem?_eq_some_iff.mp hc).1
    simpa [Model.store] using And.intro hv hr
  · intro v r x hx
    obtain ⟨c, hc, he⟩ := hcell v r x hx
    exact hs c (List.mem_of_getElem? hc) _ he

theorem after_eq (e : Engines) (sense : Sense) (cs : List (Command α)) :
    (empty sense).after e cs = ((Model.new sense).after e cs).store := by
  induction cs using List.reverseRecOn with
  | nil => rfl
  | append_singleton cs c ih =>
    have hstored := ((Model.Reachable.new sense).after (e := e) cs).stored
    have hlast : (empty sense).after e (cs ++ [c]) =
        left ((c.inPlace e).run ((empty sense).after e cs)) := List.foldl_concat ..
    rw [hlast, ih, Model.after_concat, Model.inPlace_eq e hstored c]
    split <;> rfl

/-- After any commands the vectors fit together. A command that fails leaves everything as it was,
except that a solve has forgotten the last result. -/
theorem after_fits (e : Engines) (sense : Sense) (cs : List (Command α)) :
    ((empty sense).after e cs).Fits ∧
    (empty sense).after e cs = ((Model.new sense).after e cs).store ∧
    ∀ (c : Command α) (f : Failure) (t : Store α),
      (c.inPlace e).run ((empty sense).after e cs) = .error f t →
        (¬ c.Solves → t = (empty sense).after e cs) ∧
        (c.Solves → t = { (empty sense).after e cs with status := none, solution := none }) := by
  have hreach := (Model.Reachable.new sense).after (e := e) cs
  rw [after_eq]
  refine ⟨fits_store hreach.stored hreach.sparse, rfl, fun c f t h => ?_⟩
  rw [Model.inPlace_eq e hreach.stored c] at h
  split at h
  · cases h
  · next hfailure =>
    cases h
    obtain ⟨hkept, hforgot⟩ := Model.perform_of_failure hfailure
    exact ⟨fun hs => congrArg Model.store (hkept hs), fun hs => congrArg Model.store (hforgot hs)⟩

/-- A cost of an unknown variable is refused and changes nothing. A solve by a method that the
solver does not have forgets the solution. -/
theorem latecomer_fails : ∃ s t u : Store Rat,
    s = (empty .minimize).after Model.zeroEngines Model.latecomer ∧
    ((Command.setCost 7 1).inPlace Model.zeroEngines).run s =
      .error (.rejected (.unknownVariable 7)) t ∧ t = s ∧ t.solution = some [0] ∧
    ((Command.solve { solver := .internal, method := .interior }).inPlace Model.zeroEngines).run s =
      .error (.rejected (.unsupportedMethod .internal .interior)) u ∧
      u = { s with status := none, solution := none } := by
  obtain ⟨-, -, herror⟩ := after_fits Model.zeroEngines .minimize Model.latecomer
  have hcost : ((Command.setCost 7 1).inPlace Model.zeroEngines).run
      ((empty .minimize).after Model.zeroEngines Model.latecomer) =
      .error (.rejected (.unknownVariable 7)) _ := rfl
  have hsolve : ((Command.solve { solver := .internal, method := .interior }).inPlace
      Model.zeroEngines).run ((empty .minimize).after Model.zeroEngines Model.latecomer) =
      .error (.rejected (.unsupportedMethod .internal .interior)) _ := rfl
  exact ⟨_, _, _, rfl, hcost, (herror _ _ _ hcost).1 id, rfl, hsolve,
    (herror _ _ _ hsolve).2 trivial⟩

end Store

end LinearProgramming
