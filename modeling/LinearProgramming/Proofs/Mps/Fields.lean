import LinearProgramming.Program.Mps

/-!
# Lines and fields of an MPS file

* `lines`, `fields`: the lines of a text and the fields of a line, between blanks;
* `Plain`: what neither is broken by; names and numbers are (`variableName_plain`, `rowName_plain`,
  `number_plain`);
* `fields_text`: the fields of the line of each record, which begins with a blank unless it opens a
  part (`head_text`);
* `lines_mps`: a program's file has the lines of its records.
-/

namespace LinearProgramming.Mps

/-! ## Pieces -/

/-- The pieces of a text between separators, without the empty ones. -/
def pieces (separator : Char) (text : List Char) : List (List Char) :=
  (text.splitOn separator).filter fun w => !w.isEmpty

section Pieces

variable {separator : Char}

/-- A text is cut where there is a separator. -/
theorem pieces_append (u w : List Char) :
    pieces separator (u ++ separator :: w) = pieces separator u ++ pieces separator w := by
  rw [pieces, List.splitOn, List.splitOnP_append_cons _ _ (by simp), List.filter_append]
  rfl

theorem pieces_word {w : List Char} (hne : w ≠ []) (h : ∀ c ∈ w, c ≠ separator) :
    pieces separator w = [w] := by
  rw [pieces, List.splitOn, List.splitOnP_eq_singleton (by simpa using h)]
  simp [hne]

end Pieces

/-- The lines of a text. -/
def lines (text : String) : List (List Char) := pieces '\n' text.toList

/-- The fields of a line. -/
def fields (line : List Char) : List String := (pieces ' ' line).map String.ofList

/-- A word is not broken into fields or lines. -/
def Plain (w : String) : Prop := w.toList ≠ [] ∧ ∀ c ∈ w.toList, c ≠ ' ' ∧ c ≠ '\n'

instance (w : String) : Decidable (Plain w) :=
  @instDecidableAnd _ _ inferInstance (List.decidableBAll (fun c => c ≠ ' ' ∧ c ≠ '\n') w.toList)

theorem fields_last {w : String} (h : Plain w) : fields w.toList = [w] := by
  rw [fields, pieces_word h.1 fun c hc => (h.2 c hc).1]
  simp

theorem fields_append (u w : List Char) : fields (u ++ ' ' :: w) = fields u ++ fields w := by
  rw [fields, pieces_append, List.map_append, fields, fields]

/-- A word after a blank is a field. -/
theorem fields_concat (u : String) {w : String} (h : Plain w) :
    fields (u ++ " " ++ w).toList = fields u.toList ++ [w] := by
  have hlist : (u ++ " " ++ w).toList = u.toList ++ ' ' :: w.toList := by simp
  rw [hlist, fields_append, fields_last h]

/-- So is one after a text that ends in a blank. -/
theorem fields_after {u w : String} (hu : u.toList = u.toList.dropLast ++ [' ']) (h : Plain w) :
    fields (u ++ w).toList = fields u.toList ++ [w] := by
  have hlist : (u ++ w).toList = u.toList.dropLast ++ ' ' :: w.toList := by
    rw [String.toList_append, hu]
    simp
  rw [hlist, fields_append, fields_last h, hu, fields_append, List.dropLast_concat]
  simp [fields, pieces]

/-! ## Names and numbers -/

/-- Digits do not break a word. -/
theorem ne_of_isDigit {c : Char} (h : c.isDigit = true) : c ≠ ' ' ∧ c ≠ '\n' := by
  constructor <;> rintro rfl <;> cases h

theorem isDigit_of_mem_toString {n : Nat} {c : Char} (h : c ∈ (toString n).toList) :
    c.isDigit = true := by
  rw [Nat.toString_eq_repr, Nat.toList_repr] at h
  exact Nat.isDigit_of_mem_toDigits (by decide) (by decide) h

theorem toString_ne_nil (n : Nat) : (toString n).toList ≠ [] := by
  rw [Nat.toString_eq_repr, Nat.toList_repr]
  exact Nat.toDigits_ne_nil

theorem plain_append {u w : String} (hu : Plain u) (hw : ∀ c ∈ w.toList, c ≠ ' ' ∧ c ≠ '\n') :
    Plain (u ++ w) := by
  constructor
  · simp [hu.1]
  · intro c hc
    rw [String.toList_append, List.mem_append] at hc
    exact hc.elim (hu.2 c) (hw c)

theorem variableName_plain (v : Nat) : Plain (variableName v) :=
  plain_append (by decide) fun _ hc => ne_of_isDigit (isDigit_of_mem_toString hc)

theorem rowName_plain (r : Nat) : Plain (rowName r) :=
  plain_append (by decide) fun _ hc => ne_of_isDigit (isDigit_of_mem_toString hc)

/-- The text of a number has digits, a point and a sign, or is the name of a value that is none. -/
theorem decimal_plain (d : Decimal) : Plain d.text := by
  have hdigits : ∀ c ∈ (toString d.digits).toList, c ≠ ' ' ∧ c ≠ '\n' := fun c hc =>
    ne_of_isDigit (isDigit_of_mem_toString hc)
  have hzeros : ∀ n, ∀ c ∈ List.replicate n '0', c ≠ ' ' ∧ c ≠ '\n' := by
    intro n c hc
    rw [List.eq_of_mem_replicate hc]
    decide
  unfold Decimal.text
  dsimp only
  split
  · refine plain_append ⟨toString_ne_nil _, hdigits⟩ ?_
    rw [String.toList_ofList]
    exact hzeros _
  · split
    · next hplaces =>
      rw [String.append_assoc]
      refine plain_append ⟨?_, ?_⟩ ?_
      · rw [String.toList_ofList, Ne, List.take_eq_nil_iff, not_or]
        exact ⟨by omega, toString_ne_nil _⟩
      · rw [String.toList_ofList]
        exact fun c hc => hdigits c (List.mem_of_mem_take hc)
      · intro c hc
        rw [String.toList_append, List.mem_append] at hc
        rcases hc with hc | hc
        · obtain rfl : c = '.' := List.mem_singleton.mp hc
          decide
        · rw [String.toList_ofList] at hc
          exact hdigits c (List.mem_of_mem_drop hc)
    · rw [String.append_assoc]
      refine plain_append (by decide) fun c hc => ?_
      rw [String.toList_append, List.mem_append, String.toList_ofList] at hc
      exact hc.elim (hzeros _ c) (hdigits c)

theorem number_plain (x : Binary) : Plain (number x) := by
  unfold number Format.text
  cases x with
  | nan => decide
  | infinite negative => cases negative <;> decide
  | finite negative m e =>
    have hmagnitude : Plain (if m = 0 then "0" else (Format.double.shortest m e).text) := by
      split
      · decide
      · exact decimal_plain _
    cases negative
    · exact hmagnitude
    · exact plain_append (by decide) hmagnitude.2

/-! ## Records -/

/-- The fields of the line of a record. -/
def Record.fields : Record → List String
  | .title => ["NAME", "LP"]
  | .maximize => ["OBJSENSE", "MAX"]
  | .part p => [p.text]
  | .objective => ["N", objectiveName]
  | .row relation r => [rowLetter relation, rowName r]
  | .cost v x => [variableName v, objectiveName, number x]
  | .coefficient v r x => [variableName v, rowName r, number x]
  | .constant r x => ["RHS", rowName r, number x]
  | .range r x => ["RNG", rowName r, number x]
  | .free v => ["FR", "BND", variableName v]
  | .noLower v => ["MI", "BND", variableName v]
  | .lower v x => ["LO", "BND", variableName v, number x]
  | .upper v x => ["UP", "BND", variableName v, number x]
  | .fixed v x => ["FX", "BND", variableName v, number x]

/-- The record opens a part of the file, or stands before them. -/
def Record.isHead : Record → Bool
  | .title | .maximize | .part _ => true
  | _ => false

theorem part_plain (p : Part) : Plain p.text := by
  cases p <;> decide

@[simp]
theorem fields_text (t : Record) : Mps.fields t.text.toList = t.fields := by
  cases t with
  | title => decide
  | maximize => decide
  | part p => exact fields_last (part_plain p)
  | objective => decide
  | row relation r =>
    cases relation <;> exact fields_after (by decide) (rowName_plain r)
  | cost v x =>
    rw [Record.text, fields_concat _ (number_plain x), fields_concat _ (by decide),
      fields_after (by decide) (variableName_plain v)]
    rfl
  | coefficient v r x =>
    rw [Record.text, fields_concat _ (number_plain x), fields_concat _ (rowName_plain r),
      fields_after (by decide) (variableName_plain v)]
    rfl
  | constant r x | range r x =>
    rw [Record.text, fields_concat _ (number_plain x), fields_after (by decide) (rowName_plain r)]
    rfl
  | free v | noLower v => exact fields_after (by decide) (variableName_plain v)
  | lower v x | upper v x | fixed v x =>
    rw [Record.text, fields_concat _ (number_plain x),
      fields_after (by decide) (variableName_plain v)]
    rfl

/-- Only the lines that open a part begin without a blank. -/
theorem head_text (t : Record) : (t.text.toList.head? == some ' ') = !t.isHead := by
  cases t with
  | title => decide
  | maximize => decide
  | part p => cases p <;> decide
  | objective => decide
  | row relation r => cases relation <;> simp [Record.text, Record.isHead]
  | _ => simp [Record.text, Record.isHead]

/-! ## The file -/

/-- The text is on one line. -/
def Unbroken (w : String) : Prop := ∀ c ∈ w.toList, c ≠ '\n'

instance (w : String) : Decidable (Unbroken w) :=
  List.decidableBAll (fun c => c ≠ '\n') w.toList

theorem Plain.unbroken {w : String} (h : Plain w) : Unbroken w := fun c hc => (h.2 c hc).2

theorem Unbroken.append {u w : String} (hu : Unbroken u) (hw : Unbroken w) : Unbroken (u ++ w) := by
  intro c hc
  rw [String.toList_append, List.mem_append] at hc
  exact hc.elim (hu c) (hw c)

/-- A field more does not break a line. -/
theorem Unbroken.field {u w : String} (hu : Unbroken u) (hw : Plain w) :
    Unbroken (u ++ " " ++ w) :=
  (hu.append (by decide)).append hw.unbroken

theorem unbroken_text (t : Record) : Unbroken t.text := by
  cases t with
  | title => decide
  | maximize => decide
  | part p => exact (part_plain p).unbroken
  | objective => decide
  | row relation r =>
    have hfirst : Unbroken (" " ++ rowLetter relation ++ "  ") := by cases relation <;> decide
    exact hfirst.append (rowName_plain r).unbroken
  | cost v x =>
    have hfirst : Unbroken ("    " ++ variableName v) :=
      .append (by decide) (variableName_plain v).unbroken
    exact (hfirst.field (by decide)).field (number_plain x)
  | coefficient v r x =>
    have hfirst : Unbroken ("    " ++ variableName v) :=
      .append (by decide) (variableName_plain v).unbroken
    exact (hfirst.field (rowName_plain r)).field (number_plain x)
  | constant r x | range r x =>
    exact (Unbroken.append (by decide) (rowName_plain r).unbroken).field (number_plain x)
  | free v | noLower v => exact .append (by decide) (variableName_plain v).unbroken
  | lower v x | upper v x | fixed v x =>
    exact (Unbroken.append (by decide) (variableName_plain v).unbroken).field (number_plain x)

theorem text_ne_nil (t : Record) : t.text.toList ≠ [] := by
  intro h
  have hfields := fields_text t
  rw [h] at hfields
  cases t <;> cases hfields

theorem lines_endLines {ls : List String} (h : ∀ l ∈ ls, l.toList ≠ [] ∧ Unbroken l) :
    lines (endLines ls) = ls.map String.toList := by
  unfold lines endLines
  rw [String.toList_join]
  induction ls with
  | nil => rfl
  | cons l rest ih =>
    obtain ⟨hne, hl⟩ := h l List.mem_cons_self
    rw [List.map_cons, List.flatMap_cons, String.toList_append]
    change pieces '\n' (l.toList ++ ['\n'] ++ _) = _
    rw [List.append_assoc, List.singleton_append, pieces_append, pieces_word hne hl,
      ih fun k hk => h k (List.mem_cons_of_mem l hk)]
    rfl

theorem lines_mps {α : Type} [Scalar α] (p : Program α) :
    lines p.mps = p.mpsRecords.map fun t => t.text.toList := by
  rw [Program.mps, lines_endLines, List.map_map]
  · rfl
  · intro l hl
    obtain ⟨t, -, rfl⟩ := List.mem_map.mp hl
    exact ⟨text_ne_nil t, unbroken_text t⟩

end LinearProgramming.Mps
