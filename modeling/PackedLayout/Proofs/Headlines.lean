import PackedLayout.Diagnostic.Report
import PackedLayout.Proofs.MarkedLines

/-!
# Where a diagnostic points

Rows and reports name a place for a diagnostic if it has a label. A report names that of the first
label. Rows are ordered by line, and name that of the first label in the earliest line, so the two
places are the same only if no label starts in an earlier line than the first one.

- `filter_isLocation`: one row has a place at most, the one over the lines;
- `Headline`, `exists_headline`: it has the place of the first label in the earliest line;
- `location_earliest`: which places are named, and when they are the same;
- `location_apart`: two labels for which they are not.
-/

namespace PackedLayout

variable {text : List Char} {lines : Lines} {labels rest : List Label} {label first : Label}
  {shown : List MarkedLine} {row : Row}

def Row.isLocation : Row → Bool
  | .location _ _ _ => true
  | _ => false

theorem isLocation_of_inSnippet (h : row.inSnippet = true) : row.isLocation = false := by
  cases row with
  | location => exact absurd h nofun
  | _ => rfl

/-- The only row with a place is the one over the lines. -/
theorem filter_isLocation (file : Option String) (shown : List MarkedLine) (d : Diagnostic) :
    (d.rowsAt file shown).filter Row.isLocation =
      (d.headRows file shown).filter Row.isLocation := by
  have body : (lineRows none shown).filter Row.isLocation = [] := by
    apply List.filter_eq_nil_iff.mpr
    intro row member
    rw [isLocation_of_inSnippet (inSnippet_of_mem_lineRows member)]
    exact Bool.false_ne_true
  have foot : (d.footRows shown).filter Row.isLocation = [] := by
    apply List.filter_eq_nil_iff.mpr
    intro row member
    obtain rfl | ⟨_, rfl⟩ | ⟨_, rfl⟩ := eq_of_mem_footRows member <;> exact Bool.false_ne_true
  rw [rowsAt_eq, List.filter_append, List.filter_append, body, foot, List.append_nil,
    List.append_nil]

/-- The first of the labels that start in the earliest line. -/
def Headline (lines : Lines) (labels : List Label) (label : Label) : Prop :=
  ∃ before behind, labels = before ++ label :: behind ∧
    (∀ other ∈ before, label.startLine lines < other.startLine lines) ∧
    ∀ other ∈ behind, label.startLine lines ≤ other.startLine lines

theorem Headline.mem (h : Headline lines labels label) : label ∈ labels := by
  obtain ⟨before, behind, rfl, _, _⟩ := h
  exact List.mem_append_right _ List.mem_cons_self

theorem Headline.le (h : Headline lines labels label) :
    ∀ other ∈ labels, label.startLine lines ≤ other.startLine lines := by
  obtain ⟨before, behind, rfl, later, others⟩ := h
  intro other member
  obtain earlier | member := List.mem_append.mp member
  · exact Nat.le_of_lt (later other earlier)
  · obtain rfl | member := List.mem_cons.mp member
    · exact Nat.le_refl _
    · exact others other member

/-- The first label is the headline unless another one starts in an earlier line. -/
theorem Headline.eq_first (h : Headline lines (first :: rest) label)
    (earliest : first.startLine lines ≤ label.startLine lines) : label = first := by
  obtain ⟨before, behind, split, later, _⟩ := h
  cases before with
  | nil => exact (List.cons.inj split).1.symm
  | cons other before =>
    obtain ⟨rfl, _⟩ := List.cons.inj split
    exact absurd (later first List.mem_cons_self) (Nat.not_lt.mpr earliest)

theorem Headline.location_eq_iff (h : Headline lines (first :: rest) label) (file : String) :
    [Row.location file (lines.lineColumn label.span.start).1
        (lines.lineColumn label.span.start).2] =
      [.location file (lines.lineColumn first.span.start).1
        (lines.lineColumn first.span.start).2] ↔
    ∀ other ∈ rest, first.startLine lines ≤ other.startLine lines := by
  constructor
  · intro same other member
    injection same with same
    injection same with _ line _
    have started : label.startLine lines = first.startLine lines := line
    rw [← started]
    exact h.le other (List.mem_cons_of_mem first member)
  · intro least
    have earliest : first.startLine lines ≤ label.startLine lines := by
      obtain rfl | member := List.mem_cons.mp h.mem
      · exact Nat.le_refl _
      · exact least label member
    rw [h.eq_first earliest]

/-- The row over the lines has the place of the headline. -/
theorem exists_headline (text : List Char) (lines : Lines) (file : Option String) (d : Diagnostic)
    (labelled : d.labels ≠ []) :
    ∃ label, Headline lines d.labels label ∧
      (d.headRows file (markedLines text lines d.labels)).filter Row.isLocation =
        [.location (file.getD "<schema>") (lines.lineColumn label.span.start).1
          (lines.lineColumn label.span.start).2] := by
  obtain ⟨numbers, marked, ordered, members⟩ := exists_markedLines text lines d.labels
  cases numbers with
  | nil =>
    obtain ⟨label, _, split⟩ := List.exists_cons_of_ne_nil labelled
    have listed := (members (label.startLine lines)).mpr ⟨label, by simp [split], rfl⟩
    simp at listed
  | cons n rest =>
    have least : ∀ label ∈ d.labels, n ≤ label.startLine lines := by
      intro label member
      have listed := (members _).mpr ⟨label, member, rfl⟩
      obtain same | later := List.mem_cons.mp listed
      · exact Nat.le_of_eq same.symm
      · exact Nat.le_of_lt ((List.pairwise_cons.mp ordered).1 _ later)
    obtain ⟨started, member, same⟩ := (members n).mp List.mem_cons_self
    obtain ⟨label, others, here⟩ := List.exists_cons_of_ne_nil
      (List.ne_nil_of_mem (mem_labelsOn.mpr ⟨member, same⟩))
    obtain ⟨before, behind, split, none, own, _⟩ := List.filter_eq_cons_iff.mp here
    have own : label.startLine lines = n := eq_of_beq own
    refine ⟨label, ⟨before, behind, split, ?_, ?_⟩, ?_⟩
    · intro other earlier
      have above := least other (by simp [split, earlier])
      have other_ : other.startLine lines ≠ n := by simpa using none other earlier
      omega
    · intro other later
      rw [own]
      exact least other (by simp [split, later])
    · subst own
      rw [marked, List.map_cons]
      simp only [Diagnostic.headRows, markedLine, here]
      rfl

/-- Rows and reports name a place just if there is a label. A report names that of the first label,
and rows that of the first label in the earliest line. These are the same just if no label starts in
an earlier line than the first one. -/
theorem location_earliest (source : String) (file : Option String) (d : Diagnostic) :
    let text := source.toList
    let lines := Lines.of text
    let located := (d.rows text file).filter Row.isLocation
    let location := (Report.entry text lines d).location
    match d.labels with
    | [] => located = [] ∧ location = none
    | first :: rest =>
      let place := lines.lineColumn first.span.start
      d.firstSpan? = some first.span ∧
      location = some ⟨place.1, place.2, first.span.start⟩ ∧
      (∃ label, Headline lines d.labels label ∧
        located = [.location (file.getD "<schema>") (lines.lineColumn label.span.start).1
          (lines.lineColumn label.span.start).2]) ∧
      (located = [.location (file.getD "<schema>") place.1 place.2] ↔
        ∀ other ∈ rest, first.startLine lines ≤ other.startLine lines) := by
  intro text lines located location
  have located_eq : located = (d.headRows file (markedLines text lines d.labels)).filter
      Row.isLocation := filter_isLocation file _ d
  have location_eq : location = d.firstSpan?.map fun span => lines.place span.start := rfl
  cases split : d.labels with
  | nil =>
    rw [split] at located_eq
    refine ⟨located_eq, ?_⟩
    simp [location_eq, Diagnostic.firstSpan?, split]
  | cons first rest =>
    have firstSpan : d.firstSpan? = some first.span := by simp [Diagnostic.firstSpan?, split]
    dsimp only
    obtain ⟨label, headline, row⟩ := exists_headline text lines file d (by simp [split])
    rw [← located_eq] at row
    rw [split] at headline
    refine ⟨firstSpan, by rw [location_eq, firstSpan]; rfl, ⟨label, headline, row⟩, ?_⟩
    rw [row]
    exact headline.location_eq_iff (file.getD "<schema>")

/-- The first label starts in the second line, and the second one in the first line: the rows point
at the second label, and the report at the first. -/
theorem location_apart :
    let text := "ab\ncd\n".toList
    let d := ((Diagnostic.error "bad").withLabel ⟨3, 5⟩ "second").withLabel ⟨0, 2⟩ "first"
    (d.rows text (some "a.schema")).take 3 =
        [.header .error none "bad", .location "a.schema" 1 1, .bar] ∧
      (Report.entry text (Lines.of text) d).location = some ⟨2, 1, 3⟩ ∧
      d.firstSpan? = some ⟨3, 5⟩ := by decide

end PackedLayout
