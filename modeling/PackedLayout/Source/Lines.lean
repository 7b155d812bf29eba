/-!
# Lines of a text

Offsets and columns count bytes of the UTF-8 form; lines and columns count from 1. `Lines` holds
where every line starts, `lineColumn` finds the place of an offset, and `lineText?` cuts a line
out of a text.
-/

namespace PackedLayout

/-- Bytes of the UTF-8 form of some characters. -/
def utf8Size (cs : List Char) : Nat := cs.foldr (fun c n => c.utf8Size + n) 0

/-- The characters that take up exactly the next `n` bytes, and the rest; nothing when `n` bytes
end inside a character or beyond the text. -/
def splitBytes? : Nat → List Char → Option (List Char × List Char)
  | 0, cs => some ([], cs)
  | _ + 1, [] => none
  | n + 1, c :: cs =>
    if c.utf8Size ≤ n + 1 then
      (splitBytes? (n + 1 - c.utf8Size) cs).map fun (front, back) => (c :: front, back)
    else none

/-- The bytes from `start` to `stop`, where both are borders of characters of the text. -/
def byteSlice? (text : List Char) (start stop : Nat) : Option (List Char) :=
  if start ≤ stop then do
    let (_, back) ← splitBytes? start text
    let (slice, _) ← splitBytes? (stop - start) back
    return slice
  else none

/-- The offset just after each newline, for a text that starts at offset `here`. -/
def offsetsAfterNewlines : Nat → List Char → List Nat
  | _, [] => []
  | here, c :: cs =>
    let next := here + c.utf8Size
    if c = '\n' then next :: offsetsAfterNewlines next cs else offsetsAfterNewlines next cs

structure Lines where
  /-- The offset of the first byte of every line. -/
  starts : List Nat
  /-- Bytes of the whole text. -/
  size : Nat

namespace Lines

def of (text : List Char) : Lines := ⟨0 :: offsetsAfterNewlines 0 text, utf8Size text⟩

def count (lines : Lines) : Nat := lines.starts.length

/-- Line and column of a byte offset; an offset past the end counts as the end. -/
def lineColumn (lines : Lines) (offset : Nat) : Nat × Nat :=
  let offset := min offset lines.size
  let begun := lines.starts.takeWhile (· ≤ offset)
  (begun.length, offset - begun.getLastD 0 + 1)

/-- The text of a line, its newline left out. The last line runs to the end of `text`, which need
not be the text the lines were found in. -/
def lineText? (lines : Lines) (text : List Char) (line : Nat) : Option (List Char) :=
  match line with
  | 0 => none
  | n + 1 =>
    match lines.starts.drop n with
    | [] => none
    | [start] => byteSlice? text start (utf8Size text)
    | start :: next :: _ => byteSlice? text start (next - 1)

end Lines

end PackedLayout
