import Mathlib.Data.Prod.Lex
import Mathlib.Order.Bounds.Basic
import Mathlib.Order.Interval.Set.Defs
import PackedLayout.Source.Lines

/-!
# Places in a text

A place is a byte offset in another form: the line counts the newlines before the offset, and the
column the bytes since the last of them. Lines joined with newlines are the text again.

- `Cut`: a text cut at its newlines, with the offset each line starts at;
- `Line`: what a cut says of one line, on its own;
- `Lines.lineText?_eq`: the table of starts gives back the lines of the cut;
- `Cut.exists_line`: every offset lies in a line;
- `Lines.Placed`, `Lines.placed_lineColumn`: the place of an offset, read off its line;
- `lines_view`: so places are offsets, and lines are the text.
-/

namespace PackedLayout

variable {text line before after rest : List Char} {lines : List (List Char)}
  {starts : List Nat} {here start next k offset : Nat} {c : Char}

/-! ## Bytes of a text -/

/-- The UTF-8 form of some characters. -/
def utf8Bytes (text : List Char) : List UInt8 := text.flatMap String.utf8EncodeChar

theorem utf8Bytes_toList (source : String) :
    utf8Bytes source.toList = source.toUTF8.data.toList := by
  have same : (utf8Bytes source.toList).toByteArray = source.toUTF8 := String.utf8Encode_toList
  rw [← same, List.toList_data_toByteArray]

@[simp] theorem utf8Bytes_append (s t : List Char) :
    utf8Bytes (s ++ t) = utf8Bytes s ++ utf8Bytes t := List.flatMap_append

@[simp] theorem utf8Size_nil : utf8Size [] = 0 := rfl

@[simp] theorem utf8Size_cons (c : Char) (cs : List Char) :
    utf8Size (c :: cs) = c.utf8Size + utf8Size cs := rfl

@[simp] theorem utf8Size_append (s t : List Char) :
    utf8Size (s ++ t) = utf8Size s + utf8Size t := by
  induction s with
  | nil => simp
  | cons c s ih => simp [ih, Nat.add_assoc]

theorem length_utf8Bytes (text : List Char) : (utf8Bytes text).length = utf8Size text := by
  induction text with
  | nil => rfl
  | cons c text ih =>
    rw [utf8Size_cons, ← ih, ← String.length_utf8EncodeChar, ← List.length_append]
    rfl

theorem newline_byte_not_mem (h : c ≠ '\n') : 10 ∉ String.utf8EncodeChar c := by
  have other : c.val.toNat ≠ 10 := by
    intro same
    exact h (Char.ext (UInt32.toNat_inj.mp same))
  -- every byte of a longer form has its highest bit set
  have byte {n : Nat} (same : (10 : UInt8) = .ofNat n) : 10 = n % 256 := by
    have := congrArg UInt8.toNat same
    rwa [UInt8.toNat_ofNat'] at this
  intro member
  unfold String.utf8EncodeChar at member
  dsimp only at member
  split_ifs at member <;> simp only [List.mem_cons, List.not_mem_nil, or_false] at member
  · have := byte member
    omega
  · obtain same | same := member <;> have := byte same <;> omega
  · obtain same | same | same := member <;> have := byte same <;> omega
  · obtain same | same | same | same := member <;> have := byte same <;> omega

/-- The newline bytes of a text are its newlines. -/
theorem count_utf8Bytes (text : List Char) : (utf8Bytes text).count 10 = text.count '\n' := by
  induction text with
  | nil => rfl
  | cons c text ih =>
    have first : utf8Bytes (c :: text) = String.utf8EncodeChar c ++ utf8Bytes text := rfl
    rw [first, List.count_append, ih, List.count_cons, Nat.add_comm]
    by_cases newline : c = '\n'
    · subst newline
      rfl
    · rw [List.count_eq_zero.mpr (newline_byte_not_mem newline)]
      simp [newline]

/-! ## Cutting a text at its newlines -/

/-- A text that starts at offset `here`, cut into lines, with the offset each of them starts at. -/
inductive Cut : Nat → List Char → List Nat → List (List Char) → Prop
  | last {here : Nat} {line : List Char} (whole : '\n' ∉ line) : Cut here line [here] [line]
  | cons {here : Nat} {line rest : List Char} {starts : List Nat} {lines : List (List Char)}
    (whole : '\n' ∉ line) (others : Cut (here + utf8Size line + 1) rest starts lines) :
    Cut here (line ++ '\n' :: rest) (here :: starts) (line :: lines)

namespace Cut

/-- A character that is no newline belongs to the first line. -/
theorem push (other : c ≠ '\n') (cut : Cut (here + c.utf8Size) text (next :: starts) lines) :
    ∃ lines, Cut here (c :: text) (here :: starts) lines := by
  cases cut with
  | last whole => exact ⟨_, .last (by simp [whole, other.symm])⟩
  | @cons _ line rest _ lines whole others =>
    refine ⟨_, @Cut.cons here (c :: line) rest starts lines (by simp [whole, other.symm]) ?_⟩
    rwa [utf8Size_cons, ← Nat.add_assoc here]

theorem exists_of_text (here : Nat) (text : List Char) :
    ∃ lines, Cut here text (here :: offsetsAfterNewlines here text) lines := by
  induction text generalizing here with
  | nil => exact ⟨_, .last (by simp)⟩
  | cons c text ih =>
    obtain ⟨lines, cut⟩ := ih (here + c.utf8Size)
    by_cases newline : c = '\n'
    · subst newline
      exact ⟨_, @Cut.cons here [] _ _ _ (by simp) cut⟩
    · simp only [offsetsAfterNewlines, if_neg newline]
      exact cut.push newline

theorem length_eq (cut : Cut here text starts lines) : starts.length = lines.length := by
  induction cut with
  | last => rfl
  | cons _ _ ih => simp [ih]

theorem exists_cons (cut : Cut here text starts lines) :
    ∃ rest line others, starts = here :: rest ∧ lines = line :: others := by
  cases cut with
  | last => exact ⟨_, _, _, rfl, rfl⟩
  | cons => exact ⟨_, _, _, rfl, rfl⟩

theorem whole (cut : Cut here text starts lines) : ∀ line ∈ lines, '\n' ∉ line := by
  induction cut with
  | last whole => simpa using whole
  | cons whole _ ih => simpa using ⟨whole, ih⟩

/-- Lines joined with newlines are the text again. -/
theorem intercalate (cut : Cut here text starts lines) : ['\n'].intercalate lines = text := by
  induction cut with
  | last => simp [List.intercalate]
  | @cons here line rest starts lines whole others ih =>
    obtain ⟨_, first, others, _, rfl⟩ := others.exists_cons
    rw [← ih]
    simp [List.intercalate, List.intersperse]

end Cut

/-- Line `k` of a text, counted from 0. A newline stands before it, or nothing. -/
structure Line (text : List Char) (k start : Nat) (line : List Char) : Prop where
  whole : '\n' ∉ line
  split : ∃ before after, text = before ++ line ++ after ∧ utf8Size before = start ∧
    before.count '\n' = k ∧ (before = [] ∨ ∃ s, before = s ++ ['\n'])

theorem Line.behind (first : '\n' ∉ before) (h : Line rest k start line) :
    Line (before ++ '\n' :: rest) (k + 1) (utf8Size before + 1 + start) line := by
  obtain ⟨front, after, rfl, rfl, rfl, border⟩ := h.split
  refine ⟨h.whole, before ++ '\n' :: front, after, by simp, ?_, ?_, .inr ?_⟩
  · have : Char.utf8Size '\n' = 1 := rfl
    simp [this, Nat.add_assoc]
  · simp [List.count_eq_zero.mpr first]
  · obtain rfl | ⟨s, rfl⟩ := border
    · exact ⟨before, rfl⟩
    · exact ⟨before ++ '\n' :: s, by simp⟩

/-- No offset before the start of a line has as many newlines before it. -/
theorem Line.isLeast (h : Line text k start line) :
    IsLeast {s | ((utf8Bytes text).take s).count 10 = k} start := by
  obtain ⟨before, after, rfl, rfl, rfl, border⟩ := h.split
  have upTo {s : Nat} {front : List Char} (short : s ≤ utf8Size front) (back : List Char) :
      (utf8Bytes (front ++ back)).take s = (utf8Bytes front).take s := by
    rw [utf8Bytes_append, List.take_append_of_le_length (by rwa [length_utf8Bytes])]
  constructor
  · show List.count _ _ = _
    rw [List.append_assoc, upTo (Nat.le_refl _), ← length_utf8Bytes, List.take_length,
      count_utf8Bytes]
  · intro s same
    by_contra earlier
    obtain rfl | ⟨front, rfl⟩ := border
    · exact earlier (Nat.zero_le s)
    · have one : Char.utf8Size '\n' = 1 := rfl
      have short : s ≤ utf8Size front := by
        simp only [utf8Size_append, utf8Size_cons, utf8Size_nil, one] at earlier
        omega
      have few := ((utf8Bytes front).take_sublist s).count_le 10
      rw [Set.mem_ofPred_eq, List.append_assoc, List.append_assoc, upTo short] at same
      rw [same, count_utf8Bytes, List.count_append, List.count_singleton_self] at few
      omega

/-- An offset in a line has the newlines before it that the line has. -/
theorem Line.count_take (h : Line text k start line) (above : start ≤ offset)
    (within : offset ≤ start + utf8Size line) :
    ((utf8Bytes text).take offset).count 10 = k := by
  obtain ⟨before, after, rfl, rfl, rfl, _⟩ := h.split
  have none := ((utf8Bytes line).take_sublist (offset - utf8Size before)).count_le 10
  rw [count_utf8Bytes, List.count_eq_zero.mpr h.whole, Nat.le_zero] at none
  rw [utf8Bytes_append, utf8Bytes_append, List.append_assoc, List.take_append, List.count_append,
    List.take_of_length_le (by rwa [length_utf8Bytes]), count_utf8Bytes, length_utf8Bytes,
    List.take_append_of_le_length (by rw [length_utf8Bytes]; omega), none, Nat.add_zero]

/-! ## The table of starts -/

theorem splitBytes?_append (front back : List Char) :
    splitBytes? (utf8Size front) (front ++ back) = some (front, back) := by
  induction front with
  | nil => cases back <;> rfl
  | cons c front ih =>
    obtain ⟨n, size⟩ : ∃ n, utf8Size (c :: front) = n + 1 :=
      Nat.exists_eq_add_one.mpr (Nat.add_pos_left c.utf8Size_pos _)
    have left : n + 1 - c.utf8Size = utf8Size front := by
      rw [← size, utf8Size_cons, Nat.add_sub_cancel_left]
    have fits : c.utf8Size ≤ n + 1 := by
      rw [← size, utf8Size_cons]
      exact Nat.le_add_right _ _
    rw [size, List.cons_append]
    simp [splitBytes?, fits, left, ih]

theorem byteSlice?_append (before line after : List Char) :
    byteSlice? (before ++ line ++ after) (utf8Size before) (utf8Size before + utf8Size line) =
      some line := by
  rw [byteSlice?, if_pos (Nat.le_add_right _ _), List.append_assoc, splitBytes?_append,
    Nat.add_sub_cancel_left]
  simp [splitBytes?_append]

namespace Cut

/-- One line of a cut, and the entry after its own, which is past the end for the last line. -/
theorem at_line (cut : Cut here text starts lines) (listed : lines[k]? = some line) :
    ∃ start, starts[k]? = some (here + start) ∧ Line text k start line ∧
      (starts.drop (k + 1)).head?.getD (here + utf8Size text + 1) =
        here + start + utf8Size line + 1 := by
  induction cut generalizing k with
  | @last here only whole =>
    cases k with
    | zero =>
      obtain rfl := Option.some.inj listed
      exact ⟨0, rfl, ⟨whole, [], [], by simp, rfl, rfl, .inl rfl⟩, rfl⟩
    | succ k => simp at listed
  | @cons here first rest starts lines whole others ih =>
    cases k with
    | zero =>
      obtain rfl := Option.some.inj listed
      refine ⟨0, rfl, ⟨whole, [], '\n' :: rest, by simp, rfl, rfl, .inl rfl⟩, ?_⟩
      obtain ⟨_, _, _, rfl, _⟩ := others.exists_cons
      rfl
    | succ k =>
      obtain ⟨start, entry, own, next⟩ := ih listed
      refine ⟨utf8Size first + 1 + start, ?_, own.behind whole, ?_⟩
      · rw [List.getElem?_cons_succ, entry]
        congr 1
        omega
      · have size : here + utf8Size (first ++ '\n' :: rest) =
            here + utf8Size first + 1 + utf8Size rest := by
          have one : Char.utf8Size '\n' = 1 := rfl
          simp only [utf8Size_append, utf8Size_cons, one]
          omega
        rw [List.drop_succ_cons, size, next]
        omega

/-- An offset in the text lies in a line: the starts up to it end with the start of that line. -/
theorem exists_line (cut : Cut here text starts lines) (above : here ≤ offset)
    (within : offset ≤ here + utf8Size text) :
    ∃ earlier start later line, starts = earlier ++ start :: later ∧
      starts.takeWhile (· ≤ offset) = earlier ++ [start] ∧
      lines[earlier.length]? = some line ∧ start ≤ offset ∧ offset ≤ start + utf8Size line := by
  induction cut with
  | @last here only whole =>
    exact ⟨[], here, [], only, rfl, by simp [above], rfl, above, within⟩
  | @cons here first rest starts lines whole others ih =>
    by_cases first_ : offset ≤ here + utf8Size first
    · obtain ⟨more, _, _, rfl, _⟩ := others.exists_cons
      refine ⟨[], here, _, first, rfl, ?_, rfl, above, first_⟩
      have past : ¬here + utf8Size first + 1 ≤ offset := by omega
      simp [above, past]
    · have one : Char.utf8Size '\n' = 1 := rfl
      simp only [utf8Size_append, utf8Size_cons, one] at within
      obtain ⟨earlier, start, later, line, rfl, begun, listed, above', within'⟩ :=
        ih (by omega) (by omega)
      refine ⟨here :: earlier, start, later, line, rfl, ?_, listed, above', within'⟩
      rw [List.takeWhile_cons_of_pos (by simpa using above), begun]
      rfl

end Cut

theorem cut_of (text : List Char) : ∃ lines, Cut 0 text (Lines.of text).starts lines :=
  Cut.exists_of_text 0 text

namespace Lines

/-- The table of a text gives back the lines of its cut, counted from 1. -/
theorem lineText?_eq (cut : Cut 0 text (Lines.of text).starts lines) (k : Nat) :
    (Lines.of text).lineText? text (k + 1) = lines[k]? := by
  simp only [lineText?]
  cases listed : lines[k]? with
  | none =>
    have past := List.getElem?_eq_none_iff.mp listed
    rw [List.drop_eq_nil_of_le (cut.length_eq ▸ past)]
  | some line =>
    obtain ⟨start, entry, own, next⟩ := cut.at_line listed
    obtain ⟨before, after, split, size, _⟩ := own.split
    obtain ⟨inside, here⟩ := List.getElem?_eq_some_iff.mp entry
    have slice : byteSlice? text start (start + utf8Size line) = some line := by
      rw [split, ← size]
      exact byteSlice?_append before line after
    simp only [Nat.zero_add] at next here
    rw [List.drop_eq_getElem_cons inside, here]
    cases rest : (Lines.of text).starts.drop (k + 1) with
    | nil =>
      rw [rest] at next
      have last : utf8Size text = start + utf8Size line := Nat.succ.inj next
      rw [← slice, ← last]
    | cons start' _ =>
      rw [rest] at next
      have last : start' - 1 = start + utf8Size line := Nat.sub_eq_of_eq_add next
      rw [← slice, ← last]

/-- An offset as a place: its line, and how far behind the start of that line it is. -/
structure Placed (text : List Char) (offset line column start : Nat) (content : List Char) :
    Prop where
  own : Line text (line - 1) start content
  entry : (Lines.of text).starts[line - 1]? = some start
  text? : (Lines.of text).lineText? text line = some content
  line_pos : 1 ≤ line
  column_pos : 1 ≤ column
  offset_eq : start + (column - 1) = min offset (utf8Size text)
  column_le : column ≤ utf8Size content + 1

theorem placed_lineColumn (text : List Char) (offset : Nat) :
    ∃ start content, Placed text offset ((Lines.of text).lineColumn offset).1
      ((Lines.of text).lineColumn offset).2 start content := by
  obtain ⟨lines, cut⟩ := cut_of text
  obtain ⟨earlier, start, later, content, split, begun, listed, above, within⟩ :=
    cut.exists_line (Nat.zero_le (min offset (utf8Size text))) (by omega)
  have place : (Lines.of text).lineColumn offset =
      (earlier.length + 1, min offset (utf8Size text) - start + 1) := by
    have size : (Lines.of text).size = utf8Size text := rfl
    simp only [lineColumn, size, begun]
    simp
  obtain ⟨start', entry, own, _⟩ := cut.at_line listed
  have entry' : (Lines.of text).starts[earlier.length]? = some start := by simp [split]
  obtain rfl : start = 0 + start' := Option.some.inj (entry'.symm.trans entry)
  simp only [Nat.zero_add] at *
  rw [place]
  refine ⟨start', content, ?_, entry', ?_, ?_, ?_, ?_, ?_⟩
  · exact own
  · rw [lineText?_eq cut, listed]
  all_goals dsimp only
  all_goals omega

namespace Placed

variable {column line' column' start' offset' l l' : Nat} {content content' : List Char}

theorem count_eq (h : Placed text offset l column start content) :
    ((utf8Bytes text).take (min offset (utf8Size text))).count 10 = l - 1 := by
  have above := h.offset_eq
  have within := h.column_le
  exact h.own.count_take (by omega) (by omega)

/-- Within the text, the place of an offset gives back the offset. -/
theorem offset_eq_of_same (h : Placed text offset l column start content)
    (h' : Placed text offset' l column start' content') :
    min offset (utf8Size text) = min offset' (utf8Size text) := by
  obtain rfl : start = start' := Option.some.inj (h.entry.symm.trans h'.entry)
  rw [← h.offset_eq, ← h'.offset_eq]

theorem le_of_le (h : Placed text offset l column start content)
    (h' : Placed text offset' l' column' start' content') (le : offset ≤ offset') :
    l < l' ∨ l = l' ∧ column ≤ column' := by
  have clamped : min offset (utf8Size text) ≤ min offset' (utf8Size text) := by omega
  have fewer := (List.take_sublist_take_left clamped (l := utf8Bytes text)).count_le 10
  rw [h.count_eq, h'.count_eq] at fewer
  have pos := h.line_pos
  have pos' := h'.line_pos
  by_cases same : l = l'
  · subst same
    obtain rfl : start = start' := Option.some.inj (h.entry.symm.trans h'.entry)
    have eq := h.offset_eq
    have eq' := h'.offset_eq
    have first := h.column_pos
    have first' := h'.column_pos
    omega
  · omega

end Placed

/-- No two offsets of a text share a place. -/
theorem injOn_lineColumn (text : List Char) :
    Set.InjOn (Lines.of text).lineColumn (Set.Iic (utf8Size text)) := by
  intro a inside b inside' same
  obtain ⟨_, _, placed⟩ := placed_lineColumn text a
  obtain ⟨_, _, placed'⟩ := placed_lineColumn text b
  rw [← same] at placed'
  have eq := placed.offset_eq_of_same placed'
  rw [Set.mem_Iic] at inside inside'
  omega

theorem monotone_lineColumn (text : List Char) :
    Monotone fun offset => toLex ((Lines.of text).lineColumn offset) := by
  intro a b le
  obtain ⟨_, _, placed⟩ := placed_lineColumn text a
  obtain ⟨_, _, placed'⟩ := placed_lineColumn text b
  exact Prod.Lex.toLex_le_toLex.mpr (placed.le_of_le placed' le)

theorem isSome_lineText? (cut : Cut 0 text (Lines.of text).starts lines) (k : Nat) :
    ((Lines.of text).lineText? text k).isSome = true ↔ 1 ≤ k ∧ k ≤ (Lines.of text).count := by
  cases k with
  | zero => simp [lineText?]
  | succ k =>
    rw [lineText?_eq cut, count, cut.length_eq, isSome_getElem?]
    omega

theorem map_lineText? (cut : Cut 0 text (Lines.of text).starts lines) :
    (List.range' 1 (Lines.of text).count).map ((Lines.of text).lineText? text) =
      lines.map some := by
  apply List.ext_getElem?
  intro k
  rw [List.getElem?_map, List.getElem?_map, count, cut.length_eq]
  by_cases inside : k < lines.length
  · rw [List.getElem?_range' inside, Option.map_some, Nat.one_mul, Nat.add_comm,
      lineText?_eq cut, List.getElem?_eq_getElem inside]
    rfl
  · rw [List.getElem?_eq_none (by simpa using inside), List.getElem?_eq_none (by omega)]
    rfl

end Lines

/-- Lines and columns are another form of the offsets of a text: the line counts the newline bytes
before the offset, and the column the bytes from the start of the line on. No two offsets of the
text share a place, places ascend with their offsets, and the column is at most one past the text
of the line. There is a text just for the lines up to the count; none of them has a newline in it,
and they are the source, joined with newlines. -/
theorem lines_view (source : String) :
    let text := source.toList
    let bytes := source.toUTF8.data.toList
    let lines := Lines.of text
    (∀ offset, ∃ start content,
      let (line, column) := lines.lineColumn offset
      let offset' := min offset bytes.length
      line - 1 = (bytes.take offset').count 10 ∧ 1 ≤ line ∧
      lines.starts[line - 1]? = some start ∧
      IsLeast {s | (bytes.take s).count 10 = line - 1} start ∧
      start + (column - 1) = offset' ∧ 1 ≤ column ∧
      lines.lineText? text line = some content ∧ column ≤ utf8Size content + 1) ∧
    Set.InjOn lines.lineColumn (Set.Iic bytes.length) ∧
    Monotone (fun offset => toLex (lines.lineColumn offset)) ∧
    (∀ k, (lines.lineText? text k).isSome = true ↔ 1 ≤ k ∧ k ≤ lines.count) ∧
    ∃ contents, (List.range' 1 lines.count).map (lines.lineText? text) = contents.map some ∧
      (∀ content ∈ contents, '\n' ∉ content) ∧ ['\n'].intercalate contents = text := by
  intro text bytes lines
  have bytes_eq : bytes = utf8Bytes text := (utf8Bytes_toList source).symm
  have length : bytes.length = utf8Size text := by rw [bytes_eq, length_utf8Bytes]
  obtain ⟨contents, cut⟩ := cut_of text
  refine ⟨?_, ?_, Lines.monotone_lineColumn text, Lines.isSome_lineText? cut, contents,
    Lines.map_lineText? cut, cut.whole, cut.intercalate⟩
  · intro offset
    obtain ⟨start, content, placed⟩ := Lines.placed_lineColumn text offset
    rw [length, bytes_eq]
    exact ⟨start, content, placed.count_eq.symm, placed.line_pos, placed.entry,
      placed.own.isLeast, placed.offset_eq, placed.column_pos, placed.text?, placed.column_le⟩
  · rw [length]
    exact Lines.injOn_lineColumn text

/-- A character of two bytes before a newline at the end: the last line is empty, and an offset
past the end is the end. -/
example : (Lines.of "é\n".toList).lineColumn 9 = (2, 1) ∧
    (Lines.of "é\n".toList).lineText? "é\n".toList 2 = some [] := by decide

end PackedLayout
