import Mathlib.Data.List.Induction
import PackedLayout.Diagnostic.Terminal

/-!
# Lines with labels

A line is shown if a label starts in it, once, with all the labels that do.

- `labelsOn`, `markedLine`: the labels that start in a line, and the line with their marks;
- `insertNumber`, `insertLine_eq`: what one more label does to lines in ascending order;
- `exists_markedLines`: the lines that labels start in, in ascending order, each with its labels;
- `rowsAt_eq`, `inSnippet_of_mem_lineRows`: the rows of the lines stand between a head and a foot.
-/

namespace PackedLayout

variable {text : List Char} {lines : Lines} {labels : List Label} {label : Label}
  {numbers : List Nat} {n k : Nat} {shown : List MarkedLine} {previous : Option Nat} {row : Row}

/-- The line a label starts in. -/
def Label.startLine (lines : Lines) (label : Label) : Nat := (lines.lineColumn label.span.start).1

/-- The labels that start in a line, in their order. -/
def labelsOn (lines : Lines) (labels : List Label) (n : Nat) : List Label :=
  labels.filter fun label => label.startLine lines == n

/-- The columns that a label covers in a line of so many bytes. -/
def Label.toMark (lines : Lines) (size : Nat) (label : Label) : Mark :=
  let (line, start) := lines.lineColumn label.span.start
  let (lastLine, lastColumn) := lines.lineColumn label.span.stop
  let stop := if lastLine = line then lastColumn else size + 1
  ⟨start, max stop (start + 1), label.message⟩

/-- The text of a line, or nothing if there is no such line. -/
def lineOr (text : List Char) (lines : Lines) (n : Nat) : List Char :=
  (lines.lineText? text n).getD []

/-- A line with a mark for every label that starts in it. -/
def markedLine (text : List Char) (lines : Lines) (labels : List Label) (n : Nat) : MarkedLine :=
  ⟨n, lineOr text lines n,
    (labelsOn lines labels n).map (Label.toMark lines (utf8Size (lineOr text lines n)))⟩

theorem mem_labelsOn : label ∈ labelsOn lines labels n ↔
    label ∈ labels ∧ label.startLine lines = n := by
  simp [labelsOn]

theorem mark_eq (text : List Char) (lines : Lines) (label : Label) :
    mark text lines label = ⟨label.startLine lines, lineOr text lines (label.startLine lines),
      [label.toMark lines (utf8Size (lineOr text lines (label.startLine lines)))]⟩ := rfl

theorem markedLine_concat_of_ne (h : label.startLine lines ≠ n) :
    markedLine text lines (labels ++ [label]) n = markedLine text lines labels n := by
  simp [markedLine, labelsOn, h]

theorem markedLine_concat_same (text : List Char) (lines : Lines) (labels : List Label)
    (label : Label) :
    markedLine text lines (labels ++ [label]) (label.startLine lines) =
      { markedLine text lines labels (label.startLine lines) with
        marks := (markedLine text lines labels (label.startLine lines)).marks ++
          (mark text lines label).marks } := by
  simp [mark_eq, markedLine, labelsOn]

/-- A label in a line of its own. -/
theorem markedLine_concat_new
    (new : ∀ other ∈ labels, other.startLine lines ≠ label.startLine lines) :
    markedLine text lines (labels ++ [label]) (label.startLine lines) = mark text lines label := by
  have none : labelsOn lines labels (label.startLine lines) = [] := by
    apply List.filter_eq_nil_iff.mpr
    intro other member
    simpa using new other member
  rw [markedLine_concat_same, markedLine, none, mark_eq]
  rfl

/-! ## One more label -/

/-- A number put in its place among ascending ones, unless it is there. -/
def insertNumber (n : Nat) : List Nat → List Nat
  | [] => [n]
  | m :: rest =>
    if n < m then n :: m :: rest
    else if n = m then m :: rest
    else m :: insertNumber n rest

theorem mem_insertNumber : k ∈ insertNumber n numbers ↔ k = n ∨ k ∈ numbers := by
  induction numbers with
  | nil => simp [insertNumber]
  | cons m rest ih =>
    unfold insertNumber
    split_ifs with before same
    · exact List.mem_cons
    · simp [same]
    · rw [List.mem_cons, ih, List.mem_cons]
      exact or_left_comm

theorem pairwise_insertNumber (ordered : numbers.Pairwise (· < ·)) (n : Nat) :
    (insertNumber n numbers).Pairwise (· < ·) := by
  induction numbers with
  | nil => exact List.pairwise_singleton _ _
  | cons m rest ih =>
    have ⟨least, ordered'⟩ := List.pairwise_cons.mp ordered
    unfold insertNumber
    split_ifs with before same
    · apply List.pairwise_cons.mpr ⟨?_, ordered⟩
      intro k member
      obtain rfl | member := List.mem_cons.mp member
      · exact before
      · exact Nat.lt_trans before (least k member)
    · exact ordered
    · apply List.pairwise_cons.mpr ⟨?_, ih ordered'⟩
      intro k member
      obtain rfl | member := mem_insertNumber.mp member
      · omega
      · exact least k member

theorem map_markedLine_concat (unlike : label.startLine lines ∉ numbers) :
    numbers.map (markedLine text lines (labels ++ [label])) =
      numbers.map (markedLine text lines labels) := by
  apply List.map_congr_left
  intro m member
  exact markedLine_concat_of_ne fun same => unlike (same ▸ member)

/-- The line of one more label gets its mark, or is put in its place with the mark alone. -/
theorem insertLine_eq (ordered : numbers.Pairwise (· < ·))
    (new : label.startLine lines ∉ numbers →
      ∀ other ∈ labels, other.startLine lines ≠ label.startLine lines) :
    insertLine (mark text lines label) (numbers.map (markedLine text lines labels)) =
      (insertNumber (label.startLine lines) numbers).map
        (markedLine text lines (labels ++ [label])) := by
  induction numbers with
  | nil => simp [insertLine, insertNumber, markedLine_concat_new (new List.not_mem_nil)]
  | cons m rest ih =>
    have ⟨least, ordered'⟩ := List.pairwise_cons.mp ordered
    have later : m ∉ rest := fun member => Nat.lt_irrefl m (least m member)
    have number : (mark text lines label).number = label.startLine lines := rfl
    have number' : (markedLine text lines labels m).number = m := rfl
    rw [List.map_cons, insertLine, number, number']
    unfold insertNumber
    split_ifs with before same
    · have unlike : label.startLine lines ∉ m :: rest := by
        intro member
        obtain same | member := List.mem_cons.mp member
        · omega
        · exact Nat.lt_asymm before (least _ member)
      rw [List.map_cons, map_markedLine_concat unlike, markedLine_concat_new (new unlike),
        List.map_cons]
    · subst same
      rw [List.map_cons, map_markedLine_concat later, markedLine_concat_same]
      rfl
    · have new' (absent : label.startLine lines ∉ rest) :=
        new (List.not_mem_cons_of_ne_of_not_mem same absent)
      rw [ih ordered' new', List.map_cons, markedLine_concat_of_ne same]

/-- The lines that labels start in are in ascending order, each with its labels. -/
theorem exists_markedLines (text : List Char) (lines : Lines) (labels : List Label) :
    ∃ numbers : List Nat,
      markedLines text lines labels = numbers.map (markedLine text lines labels) ∧
      numbers.Pairwise (· < ·) ∧
      ∀ n, n ∈ numbers ↔ ∃ label ∈ labels, label.startLine lines = n := by
  induction labels using List.reverseRecOn with
  | nil => exact ⟨[], rfl, .nil, by simp⟩
  | append_singleton labels label ih =>
    obtain ⟨numbers, shown, ordered, members⟩ := ih
    have new (absent : label.startLine lines ∉ numbers) (other : Label) (member : other ∈ labels) :
        other.startLine lines ≠ label.startLine lines := by
      intro same
      exact absent ((members _).mpr ⟨other, member, same⟩)
    refine ⟨insertNumber (label.startLine lines) numbers, ?_, pairwise_insertNumber ordered _, ?_⟩
    · rw [← insertLine_eq ordered new, ← shown]
      simp [markedLines, List.foldl_append]
    · intro n
      rw [mem_insertNumber, members]
      simp only [List.mem_append, List.mem_singleton, or_and_right, exists_or, exists_eq_left]
      rw [or_comm, eq_comm]

/-! ## Rows -/

/-- The rows that show a line, without the bars around all of them. -/
def Row.inSnippet : Row → Bool
  | .gap | .source _ _ | .carets _ _ | .message _ _ => true
  | _ => false

/-- What is shown before the lines: the place of the first mark, if there is a line. -/
def Diagnostic.headRows (file : Option String) (d : Diagnostic) : List MarkedLine → List Row
  | [] => [.header d.severity d.code d.message]
  | first :: _ => [.header d.severity d.code d.message,
      .location (file.getD "<schema>") first.number ((first.marks.head?.map (·.start)).getD 1),
      .bar]

/-- What is shown after the lines. -/
def Diagnostic.footRows (d : Diagnostic) (shown : List MarkedLine) : List Row :=
  (if shown.isEmpty || (footerRows d).isEmpty then [] else [.bar]) ++ footerRows d

theorem rowsAt_eq (file : Option String) (shown : List MarkedLine) (d : Diagnostic) :
    d.rowsAt file shown = d.headRows file shown ++ lineRows none shown ++ d.footRows shown := by
  cases shown with
  | nil => rfl
  | cons first rest =>
    cases none : (footerRows d).isEmpty <;>
      simp_all [Diagnostic.rowsAt, Diagnostic.headRows, Diagnostic.footRows]

theorem inSnippet_of_mem_markRows {line : MarkedLine} (h : row ∈ markRows line) :
    row.inSnippet = true := by
  unfold markRows at h
  split at h
  · simp at h
  · split at h
    · rw [List.mem_singleton.mp h]
      rfl
    · obtain rfl | message := List.mem_cons.mp h
      · rfl
      · obtain ⟨_, _, rfl⟩ := List.mem_map.mp message
        rfl

theorem inSnippet_of_mem_lineRows (h : row ∈ lineRows previous shown) : row.inSnippet = true := by
  induction shown generalizing previous with
  | nil => simp [lineRows] at h
  | cons line rest ih =>
    rw [lineRows] at h
    simp only [List.mem_append, List.mem_cons] at h
    obtain (gap | rfl | mark) | later := h
    · split at gap
      · rw [List.mem_singleton.mp gap]
        rfl
      · simp at gap
    · rfl
    · exact inSnippet_of_mem_markRows mark
    · exact ih later

theorem eq_of_mem_footRows {d : Diagnostic} (h : row ∈ d.footRows shown) :
    row = .bar ∨ (∃ t, row = .note t) ∨ ∃ t, row = .help t := by
  obtain bar | footer := List.mem_append.mp h
  · split at bar
    · simp at bar
    · exact .inl (List.mem_singleton.mp bar)
  · obtain note | help := List.mem_append.mp footer
    · obtain ⟨t, _, rfl⟩ := List.mem_map.mp note
      exact .inr (.inl ⟨t, rfl⟩)
    · obtain ⟨t, _, rfl⟩ := List.mem_map.mp help
      exact .inr (.inr ⟨t, rfl⟩)

end PackedLayout
