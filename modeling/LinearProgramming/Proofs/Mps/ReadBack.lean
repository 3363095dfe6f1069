import LinearProgramming.Proofs.Mps.Sections

/-!
# Reading a program's file

* `Program.Expressible`: a file can state the numbers of the program exactly;
* `read_mps`: what is read of such a program;
* `Program.mps_read_back`: it is the program itself, if ranges are understood with their signs.
-/

namespace LinearProgramming

open Mps

/-- Doubles stand for the numbers of the program, and for the widths of its ranges. -/
structure Program.Expressible (p : Program Rat) : Prop where
  costs : ∀ c ∈ p.columns, Exact c.cost
  cells : ∀ c ∈ p.columns, ∀ e ∈ c.entries, Exact e.2
  bounds : ∀ c ∈ p.columns, Exact c.bounds.lower ∧ Exact c.bounds.upper
  rows : ∀ b ∈ p.rows, Exact b.lower ∧ Exact b.upper
  widths : ∀ b ∈ p.rows, b.kind = .double → Exact (b.upper - b.lower)

namespace Mps

section File

variable {number? : String → Option Binary} {p : Program Rat} {sense : Sense}

theorem read_head :
    Leads number? .start ([.title] ++ (if sense = .maximize then [.maximize] else []) ++
      [.part .rows, .objective]) (stage .rows sense [] []) := by
  cases sense <;> rfl

/-- A file without ranges has no part for them. -/
theorem read_rangesPart {columns : List (Column Rat)} {bs : List (Bounds Rat)}
    (hb : ∀ b ∈ bs, b.kind = .double → Exact (b.upper - b.lower)) {ranges : List Record}
    (hranges : ranges = bs.zipIdx.flatMap fun t => rangeRecords t.1 t.2)
    (ht : ∀ t ∈ if ranges.isEmpty then [] else .part .ranges :: ranges, Legible number? t) :
    ∃ part, Leads number?
      (stage .constants sense (bs.map fun b => ⟨rowRelation b, rowConstant b, none⟩) columns)
      (if ranges.isEmpty then [] else .part .ranges :: ranges)
      (stage part sense (bs.map RowDraft.of) columns) := by
  cases ranges with
  | nil =>
    have hread : Leads number?
        (stage .ranges sense (bs.map fun b => ⟨rowRelation b, rowConstant b, none⟩) columns) []
        (stage .ranges sense (bs.map RowDraft.of) columns) := by
      rw [hranges]
      refine read_ranges hb ?_
      rw [← hranges]
      exact fun t h => absurd h List.not_mem_nil
    have hsame : (bs.map fun b => ⟨rowRelation b, rowConstant b, none⟩) = bs.map RowDraft.of :=
      congrArg Draft.rows (Except.ok.inj hread)
    rw [hsame]
    exact ⟨.constants, rfl⟩
  | cons t rest =>
    refine ⟨.ranges, .cons (stage_part _) ?_⟩
    rw [hranges]
    exact read_ranges hb fun t h => ht t (List.mem_cons_of_mem _ (hranges ▸ h))

theorem readDraft_eq (hstored : p.Stored) (hsparse : p.Sparse) (hexact : p.Expressible)
    (hread : ∀ t ∈ p.mpsRecords, Legible number? t) :
    readDraft number? p.mps = .ok (stage .finish p.sense (p.rows.map RowDraft.of) p.columns) := by
  have hconstant : ∀ b ∈ p.rows, Exact (rowConstant b) := by
    intro b hb
    unfold rowConstant
    split
    · exact (hexact.rows b hb).2
    · exact (hexact.rows b hb).1
  have hwithin : ∀ c ∈ p.columns, c.Within (p.rows.map fun b =>
      (⟨rowRelation b, 0, none⟩ : RowDraft)).length := by
    rw [List.length_map]
    exact hstored
  simp only [Program.mpsRecords, List.forall_mem_append] at hread
  obtain ⟨⟨⟨⟨⟨⟨-, hcolumns⟩, -⟩, hconstants⟩, hranges⟩, -⟩, hbounds⟩ := hread.1
  obtain ⟨part, hrangesPart⟩ := read_rangesPart hexact.widths rfl hranges
  rw [readDraft_mps]
  exact read_head.append (read_rows p.rows) |>.append (.single (stage_part .columns))
    |>.append (read_columns hwithin hsparse hexact.costs hexact.cells hcolumns)
    |>.append (.single (stage_part .constants)) |>.append (read_constants hconstant hconstants)
    |>.append hrangesPart |>.append (.single (stage_part .bounds))
    |>.append (read_bounds hexact.bounds hbounds) |>.append (.single (stage_part .finish))

/-- What is read of the file of a program. -/
theorem read_mps (hstored : p.Stored) (hsparse : p.Sparse) (hexact : p.Expressible)
    (hread : ∀ t ∈ p.mpsRecords, Legible number? t) (convention : Convention) :
    read number? convention p.mps =
      .ok { p with rows := p.rows.map fun b => (RowDraft.of b).bounds convention } := by
  rw [read, bind_eq (readDraft_eq hstored hsparse hexact hread)]
  change Except.ok (Draft.program convention _) = _
  rw [Draft.program, stage, List.map_map]
  rfl

end File

/-- With its sign, the width of a range gives the other bound. -/
@[simp]
theorem of_bounds_signed (b : Bounds Rat) : (RowDraft.of b).bounds .signed = b := by
  obtain ⟨lower, upper⟩ := b
  have hends := Bounds.kind_ends lower upper
  unfold RowDraft.of rowRelation rowConstant
  generalize Bounds.kind ⟨lower, upper⟩ = kind at hends ⊢
  cases hends with
  | double =>
    change (⟨lower, lower + (upper - lower)⟩ : Bounds Rat) = _
    rw [add_sub_cancel]
  | _ => rfl

end Mps

/-- A program whose numbers a file can state is read back from its file, by any reader of numbers
that reads those in the file as they were written. -/
theorem Program.mps_read_back {number? : String → Option Binary} {p : Program Rat}
    (hstored : p.Stored) (hsparse : p.Sparse) (hexact : p.Expressible)
    (hread : ∀ t ∈ p.mpsRecords, Legible number? t) :
    Mps.read number? .signed p.mps = .ok p := by
  rw [read_mps hstored hsparse hexact hread]
  simp only [of_bounds_signed, List.map_id']

/-- Rows and variables of every kind, some with their bounds in the wrong order. -/
def medley : Program Rat where
  sense := .maximize
  columns := [⟨.free, 3, [(0, 1), (1, 1)]⟩, ⟨⟨-sentinel, 4⟩, -1/8, [(1, -1), (2, 2)]⟩,
    ⟨⟨3/2, 3/2⟩, 0, []⟩, ⟨⟨5, -1/4⟩, 0, [(3, -5/2)]⟩, ⟨.nonnegative, 0, [(4, 10)]⟩,
    ⟨⟨0, 7⟩, 1, []⟩, ⟨⟨-2, sentinel⟩, 0, []⟩]
  rows := [⟨1, 5⟩, ⟨2, 2⟩, ⟨-1, sentinel⟩, ⟨-sentinel, 0⟩, ⟨3, 1⟩, .free]

theorem medley_read_back : medley.Stored ∧ medley.Sparse ∧ medley.Expressible ∧
    (∀ t ∈ medley.mpsRecords, Legible decimal? t) ∧
    Mps.read decimal? .signed medley.mps = .ok medley := by
  have hstored : medley.Stored := by decide
  have hsparse : medley.Sparse := by decide +kernel
  have hexact : medley.Expressible :=
    ⟨by decide +kernel, by decide +kernel, by decide +kernel, by decide +kernel, by decide +kernel⟩
  have hread : ∀ t ∈ medley.mpsRecords, Legible decimal? t := by decide +kernel
  exact ⟨hstored, hsparse, hexact, hread, Program.mps_read_back hstored hsparse hexact hread⟩

end LinearProgramming
