/-!
# Edit distance

The least number of insertions, deletions and substitutions of single characters that turn one text
into another. The rows of the table are computed one after the other; entry `j` of a row is the
distance of the characters read so far to the first `j` characters of the other text.
-/

namespace PackedLayout.EditDistance

/-- The rest of a row, for one more character `a` read. `left` is the entry computed last; the
entries of the row above start at the one above `left`. -/
def rowFrom (a : Char) (left : Nat) : List Char → List Nat → List Nat
  | b :: bs, diagonal :: above :: row =>
    let here := min (min (above + 1) (left + 1)) (diagonal + if a = b then 0 else 1)
    here :: rowFrom a here bs (above :: row)
  | _, _ => []

/-- The row below, for one more character read. -/
def nextRow (other : List Char) (row : List Nat) (a : Char) : List Nat :=
  let first := row.headD 0 + 1
  first :: rowFrom a first other row

/-- The row before any character is read. -/
def firstRow (other : List Char) : List Nat := List.range (other.length + 1)

end EditDistance

/-- The edit distance of two texts. -/
def editDistance (s t : List Char) : Nat :=
  (s.foldl (EditDistance.nextRow t) (EditDistance.firstRow t)).getLastD 0

example : editDistance "kitten".toList "sitting".toList = 3 := by decide

example : editDistance [] "hello".toList = 5 := by decide

end PackedLayout
