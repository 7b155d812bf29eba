import Mathlib.Order.Bounds.Basic
import PackedLayout.Text.EditDistance

/-!
# Edits of texts

The edit distance of two texts is the least number of edits that lead from the one to the other,
whatever places they are made at and in whatever order.

- `Edit`, `Edits`: one edit of a text, and some number of edits one after the other;
- `Aligns`: two texts side by side, read from the front, with what does not match counted;
- `Aligns.edits`, `Aligns.of_edits`: edits can be made where an alignment counts, and no number of
  edits is below all counts;
- `leastCount_cons`: the least count of an alignment, from those of shorter texts;
- `Distances`, `Distances.nextRow`: what stands in a row of the table, and in the row below;
- `editDistance_isLeast`: so the last entry is the least number of edits.
-/

namespace PackedLayout

/-- One character is inserted, deleted or replaced. -/
inductive Edit : List Char → List Char → Prop
  | insert (before after : List Char) (c : Char) : Edit (before ++ after) (before ++ c :: after)
  | delete (before after : List Char) (c : Char) : Edit (before ++ c :: after) (before ++ after)
  | replace (before after : List Char) (c d : Char) :
    Edit (before ++ c :: after) (before ++ d :: after)

/-- The one text becomes the other in so many edits. -/
inductive Edits : Nat → List Char → List Char → Prop
  | none (s : List Char) : Edits 0 s s
  | concat {n : Nat} {s t u : List Char} (earlier : Edits n s t) (last : Edit t u) :
    Edits (n + 1) s u

variable {s t u p q : List Char} {a b : Char} {n m : Nat}

theorem Edit.symm (h : Edit s t) : Edit t s := by
  cases h with
  | insert before after c => exact .delete before after c
  | delete before after c => exact .insert before after c
  | replace before after c d => exact .replace before after d c

theorem Edit.cons (a : Char) (h : Edit s t) : Edit (a :: s) (a :: t) := by
  cases h with
  | insert before after c => exact .insert (a :: before) after c
  | delete before after c => exact .delete (a :: before) after c
  | replace before after c d => exact .replace (a :: before) after c d

theorem Edit.reverse (h : Edit s t) : Edit s.reverse t.reverse := by
  cases h with
  | insert before after c => simpa using Edit.insert after.reverse before.reverse c
  | delete before after c => simpa using Edit.delete after.reverse before.reverse c
  | replace before after c d => simpa using Edit.replace after.reverse before.reverse c d

/-- An edit makes a text longer or shorter by one character at most. -/
theorem Edit.length_le (h : Edit s t) : t.length ≤ s.length + 1 := by
  cases h <;> simp only [List.length_append, List.length_cons] <;> omega

namespace Edits

theorem single (h : Edit s t) : Edits 1 s t := .concat (.none s) h

theorem eq_of_zero (h : Edits 0 s t) : s = t := by
  cases h
  rfl

theorem trans (first : Edits n s t) (second : Edits m t u) : Edits (n + m) s u := by
  induction second with
  | none => exact first
  | concat _ last ih => exact .concat (ih first) last

theorem symm (h : Edits n s t) : Edits n t s := by
  induction h with
  | none s => exact .none s
  | @concat n s t u _ last ih =>
    have back := (single last.symm).trans ih
    rwa [Nat.add_comm] at back

theorem cons (a : Char) (h : Edits n s t) : Edits n (a :: s) (a :: t) := by
  induction h with
  | none s => exact .none (a :: s)
  | concat _ last ih => exact .concat ih (last.cons a)

theorem reverse (h : Edits n s t) : Edits n s.reverse t.reverse := by
  induction h with
  | none s => exact .none s.reverse
  | concat _ last ih => exact .concat ih last.reverse

theorem length_le (h : Edits n s t) : t.length ≤ s.length + n := by
  induction h with
  | none => exact Nat.le_refl _
  | concat _ last ih =>
    have := last.length_le
    omega

end Edits

/-! ## Alignments -/

/-- Two texts side by side: a character of the one stands beside a character of the other, or is
left over. All that are left over are counted, and the pairs that differ. -/
inductive Aligns : Nat → List Char → List Char → Prop
  | nil : Aligns 0 [] []
  | left {n : Nat} {s t : List Char} (a : Char) (rest : Aligns n s t) : Aligns (n + 1) (a :: s) t
  | right {n : Nat} {s t : List Char} (b : Char) (rest : Aligns n s t) : Aligns (n + 1) s (b :: t)
  | pair {n : Nat} {s t : List Char} (a b : Char) (rest : Aligns n s t) :
    Aligns (n + if a = b then 0 else 1) (a :: s) (b :: t)

namespace Aligns

theorem same (a : Char) (rest : Aligns n s t) : Aligns n (a :: s) (a :: t) := by
  have paired := pair a a rest
  rwa [if_pos rfl] at paired

theorem self (s : List Char) : Aligns 0 s s := by
  induction s with
  | nil => exact .nil
  | cons a s ih => exact ih.same a

/-- What is left over or differs can be edited, character by character. -/
theorem edits (h : Aligns n s t) : Edits n s t := by
  induction h with
  | nil => exact .none []
  | @left n s t a _ ih =>
    have first := (Edits.single (.delete [] s a)).trans ih
    rwa [Nat.add_comm] at first
  | @right n s t b _ ih => exact .concat ih (.insert [] t b)
  | @pair n s t a b _ ih =>
    by_cases equal : a = b
    · rw [if_pos equal, equal]
      exact ih.cons b
    · rw [if_neg equal]
      exact .concat (ih.cons a) (.replace [] t a b)

/-- Two alignments with a text in common give one of the other texts, in which no more is
counted. Their columns are gone through together, so the recursion is on all three texts. -/
theorem trans {n m : Nat} {s t u : List Char} :
    Aligns n s t → Aligns m t u → ∃ k ≤ n + m, Aligns k s u
  | .nil, second => ⟨_, by omega, second⟩
  | .left a first, second =>
    have ⟨k, le, rest⟩ := trans first second
    ⟨k + 1, by omega, .left a rest⟩
  | first, .right c second =>
    have ⟨k, le, rest⟩ := trans first second
    ⟨k + 1, by omega, .right c rest⟩
  | .right _ first, .left _ second =>
    have ⟨k, le, rest⟩ := trans first second
    ⟨k, by omega, rest⟩
  | .right b first, .pair _ c second =>
    have ⟨k, le, rest⟩ := trans first second
    ⟨k + 1, by omega, .right c rest⟩
  | .pair a _ first, .left _ second =>
    have ⟨k, le, rest⟩ := trans first second
    ⟨k + 1, by omega, .left a rest⟩
  | .pair a b first, .pair _ c second => by
    have ⟨k, le, rest⟩ := trans first second
    refine ⟨_, ?_, .pair a c rest⟩
    by_cases h : a = b
    · rw [if_pos h, h]
      omega
    · rw [if_neg h]
      split <;> omega
termination_by s.length + t.length + u.length

/-- One edit leaves one character over, or one pair that may differ. -/
theorem of_edit (h : Edit s t) : ∃ k ≤ 1, Aligns k s t := by
  have behind (before : List Char) {k : Nat} {s t : List Char} (rest : Aligns k s t) :
      Aligns k (before ++ s) (before ++ t) := by
    induction before with
    | nil => exact rest
    | cons a before ih => exact ih.same a
  cases h with
  | insert before after c => exact ⟨1, Nat.le_refl 1, behind before (.right c (self after))⟩
  | delete before after c => exact ⟨1, Nat.le_refl 1, behind before (.left c (self after))⟩
  | replace before after c d =>
    exact ⟨_, by split <;> omega, behind before (.pair c d (self after))⟩

theorem of_edits (h : Edits n s t) : ∃ k ≤ n, Aligns k s t := by
  induction h with
  | none s => exact ⟨0, Nat.le_refl 0, self s⟩
  | concat _ last ih =>
    obtain ⟨k, le, earlier⟩ := ih
    obtain ⟨l, le', aligned⟩ := of_edit last
    obtain ⟨m, le'', all⟩ := earlier.trans aligned
    exact ⟨m, by omega, all⟩

end Aligns

/-! ## The table -/

/-- The least that an alignment of two texts counts. -/
abbrev LeastCount (s t : List Char) (n : Nat) : Prop := IsLeast {k | Aligns k s t} n

theorem leastCount_nil_left (t : List Char) : LeastCount [] t t.length := by
  induction t with
  | nil => exact ⟨.nil, fun k _ => Nat.zero_le k⟩
  | cons b t ih =>
    refine ⟨.right b ih.1, fun k aligned => ?_⟩
    cases aligned with
    | right _ rest => exact Nat.succ_le_succ (ih.2 rest)

theorem leastCount_nil_right (s : List Char) : LeastCount s [] s.length := by
  induction s with
  | nil => exact ⟨.nil, fun k _ => Nat.zero_le k⟩
  | cons a s ih =>
    refine ⟨.left a ih.1, fun k aligned => ?_⟩
    cases aligned with
    | left _ rest => exact Nat.succ_le_succ (ih.2 rest)

/-- The first column of an alignment is one of three. -/
theorem leastCount_cons {above left diagonal : Nat} (upper : LeastCount s (b :: t) above)
    (before : LeastCount (a :: s) t left) (both : LeastCount s t diagonal) :
    LeastCount (a :: s) (b :: t)
      (min (min (above + 1) (left + 1)) (diagonal + if a = b then 0 else 1)) := by
  constructor
  · -- the least of three counts is one of them
    have choice (x y z : Nat) :
        min (min x y) z = x ∨ min (min x y) z = y ∨ min (min x y) z = z := by
      omega
    obtain h | h | h := choice (above + 1) (left + 1) (diagonal + if a = b then 0 else 1)
    · rw [h]
      exact .left a upper.1
    · rw [h]
      exact .right b before.1
    · rw [h]
      exact .pair a b both.1
  · intro k aligned
    cases aligned with
    | left _ rest =>
      have := upper.2 rest
      omega
    | right _ rest =>
      have := before.2 rest
      omega
    | pair _ _ rest =>
      have := both.2 rest
      omega

/-- The part of a row from the entry of a beginning of the other text to the last one. The texts
are read from the front, so the beginnings stand here in reverse, `p` of the one text and `q` of
the other. -/
inductive Distances (p : List Char) : List Char → List Char → List Nat → Prop
  | last {q : List Char} {n : Nat} (entry : LeastCount p q n) : Distances p q [] [n]
  | cons {q rest : List Char} {b : Char} {n : Nat} {row : List Nat} (entry : LeastCount p q n)
    (later : Distances p (b :: q) rest row) : Distances p q (b :: rest) (n :: row)

namespace Distances

open EditDistance

variable {rest : List Char} {row : List Nat}

theorem exists_cons (h : Distances p q rest row) :
    ∃ n later, row = n :: later ∧ LeastCount p q n := by
  cases h with
  | last entry => exact ⟨_, _, rfl, entry⟩
  | cons entry _ => exact ⟨_, _, rfl, entry⟩

/-- One more character of the first text: every entry follows from the one before it and the two
above. -/
theorem rowFrom (h : Distances p q rest row) {left : Nat} (before : LeastCount (a :: p) q left) :
    Distances (a :: p) q rest (left :: EditDistance.rowFrom a left rest row) := by
  induction h generalizing left with
  | last entry => exact .last before
  | cons entry later ih =>
    obtain ⟨above, row, rfl, upper⟩ := later.exists_cons
    exact .cons before (ih (leastCount_cons upper before entry))

theorem nextRow (h : Distances p [] rest row) (a : Char) :
    Distances (a :: p) [] rest (EditDistance.nextRow rest row a) := by
  obtain ⟨n, later, rfl, entry⟩ := h.exists_cons
  have same : n = p.length := entry.unique (leastCount_nil_right p)
  refine h.rowFrom ?_
  rw [List.headD_cons, same]
  exact leastCount_nil_right (a :: p)

theorem range' (q rest : List Char) :
    Distances [] q rest (List.range' q.length (rest.length + 1)) := by
  induction rest generalizing q with
  | nil => exact .last (leastCount_nil_left q)
  | cons b rest ih => exact .cons (leastCount_nil_left q) (ih (b :: q))

theorem firstRow (t : List Char) : Distances [] [] t (EditDistance.firstRow t) := by
  rw [EditDistance.firstRow, List.range_eq_range']
  exact range' [] t

theorem foldl (h : Distances p [] rest row) (s : List Char) :
    Distances (s.reverse ++ p) [] rest (s.foldl (EditDistance.nextRow rest) row) := by
  induction s generalizing p row with
  | nil => exact h
  | cons a s ih =>
    have further := ih (h.nextRow a)
    rwa [List.reverse_cons, List.append_assoc]

/-- The last entry is for the whole of the other text. -/
theorem getLastD (h : Distances p q rest row) :
    LeastCount p (rest.reverse ++ q) (row.getLastD 0) := by
  induction h with
  | last entry => exact entry
  | cons entry later ih =>
    obtain ⟨n, row, rfl, _⟩ := later.exists_cons
    rw [List.reverse_cons, List.append_assoc]
    exact ih

end Distances

theorem leastCount_editDistance (s t : List Char) :
    LeastCount s.reverse t.reverse (editDistance s t) := by
  have last := ((Distances.firstRow t).foldl s).getLastD
  rwa [List.append_nil, List.append_nil] at last

theorem leastEdits_editDistance (s t : List Char) :
    IsLeast {n | Edits n s t} (editDistance s t) := by
  obtain ⟨aligned, least⟩ := leastCount_editDistance s t
  constructor
  · have edits := aligned.edits.reverse
    rwa [List.reverse_reverse, List.reverse_reverse] at edits
  · intro n edits
    obtain ⟨k, le, aligned⟩ := Aligns.of_edits edits.reverse
    exact Nat.le_trans (least aligned) le

/-- The edit distance of two texts is the least number of characters to insert, delete or replace,
one after the other, that turns the one into the other. It is 0 just for equal texts, it is the
same both ways, a detour makes it no smaller, and it is at least the difference of the lengths. -/
theorem editDistance_isLeast (s t u : String) :
    IsLeast {n | Edits n s.toList t.toList} (editDistance s.toList t.toList) ∧
      (editDistance s.toList t.toList = 0 ↔ s = t) ∧
      editDistance s.toList t.toList = editDistance t.toList s.toList ∧
      editDistance s.toList u.toList ≤
        editDistance s.toList t.toList + editDistance t.toList u.toList ∧
      s.length - t.length ≤ editDistance s.toList t.toList ∧
      t.length - s.length ≤ editDistance s.toList t.toList := by
  have ⟨there, least⟩ := leastEdits_editDistance s.toList t.toList
  have ⟨back, least'⟩ := leastEdits_editDistance t.toList s.toList
  have ⟨onward, _⟩ := leastEdits_editDistance t.toList u.toList
  refine ⟨⟨there, least⟩, ⟨fun zero => ?_, fun same => ?_⟩, ?_, ?_, ?_, ?_⟩
  · rw [zero] at there
    exact String.toList_inj.mp (Edits.eq_of_zero there)
  · rw [same]
    exact Nat.le_zero.mp ((leastEdits_editDistance _ _).2 (.none t.toList))
  · exact Nat.le_antisymm (least back.symm) (least' there.symm)
  · exact (leastEdits_editDistance s.toList u.toList).2 (there.trans onward)
  · have := there.symm.length_le
    simp only [String.length_toList] at this
    omega
  · have := there.length_le
    simp only [String.length_toList] at this
    omega

example : editDistance "flaw".toList "lawn".toList = 2 := by decide

end PackedLayout
