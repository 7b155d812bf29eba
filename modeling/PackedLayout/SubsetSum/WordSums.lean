import PackedLayout.Width

/-!
# Sets of sums in words

A set of numbers below a fixed size, 64 of them to a word and the lowest word first. Adding an item
to every sum moves the bits up inside the words, and what leaves a word at the top is carried into
the next one. It is done in place, from the highest word down, so that every word is read before it
is written. `Sums` does the same on the bits of one number.
-/

namespace PackedLayout

/-- The words that `size` bits take. -/
def wordCount (size : Nat) : Nat := (size + 63) / 64

theorem div_lt_wordCount {size n : Nat} (inside : n < size) : n / 64 < wordCount size := by
  unfold wordCount
  omega

structure WordSums where
  size : Nat
  words : Vector (BitVec 64) (wordCount size)
deriving DecidableEq

namespace WordSums

/-- The word whose only bit is `n`. -/
def mask (n : Nat) : BitVec 64 := 1#64 <<< n

def contains (s : WordSums) (n : Nat) : Bool :=
  if inside : n < s.size then
    have := div_lt_wordCount inside
    s.words[n / 64] &&& mask (n % 64) != 0#64
  else false

/-- Clears the bits of the last word that lie past the size. -/
def trim (s : WordSums) : WordSums :=
  if whole : s.size % 64 = 0 then s
  else
    have : s.size / 64 < wordCount s.size := by unfold wordCount; omega
    let last := s.words[s.size / 64] &&& (mask (s.size % 64) - 1#64)
    { s with words := s.words.set (s.size / 64) last }

/-- Every number below `size`, or none. -/
def filled (size : Nat) (value : Bool) : WordSums :=
  trim ⟨size, .replicate _ (if value then BitVec.allOnes 64 else 0#64)⟩

/-- Puts `n` in or takes it out; numbers past the size are left alone. -/
def set (s : WordSums) (n : Nat) (value : Bool) : WordSums :=
  if inside : n < s.size then
    have := div_lt_wordCount inside
    let word := s.words[n / 64]
    let word := if value then word ||| mask (n % 64) else word &&& ~~~mask (n % 64)
    { s with words := s.words.set (n / 64) word }
  else s

/-- A word with its bits moved up, and in their place the top bits of the word below it. -/
def carried {count : Nat} (words : Vector (BitVec 64) count) (bits source : Nat)
    (inside : source < count) : BitVec 64 :=
  let moved := words[source] <<< bits
  if bits ≠ 0 ∧ 0 < source then moved ||| words[source - 1] >>> (64 - bits) else moved

/-- Joins each word below `i`, from the highest down to word `skip`, with what the words `skip`
places further down carry into it. -/
def joinDown {count : Nat} (skip bits : Nat) :
    (i : Nat) → i ≤ count → Vector (BitVec 64) count → Vector (BitVec 64) count
  | 0, _, words => words
  | i + 1, within, words =>
    if skip ≤ i then
      joinDown skip bits i (Nat.le_of_succ_le within)
        (words.set i (words[i] ||| carried words bits (i - skip) (by omega)))
    else words

/-- The members, and every member with one item of size `k` added. -/
def withItem (s : WordSums) (k : Nat) : WordSums :=
  if k = 0 ∨ s.size ≤ k then s
  else trim { s with words := joinDown (k / 64) (k % 64) _ (Nat.le_refl _) s.words }

/-- Every member moved up by `k`. -/
def raised (s : WordSums) (k : Nat) : WordSums :=
  trim { s with words := .ofFn fun i =>
    if k / 64 ≤ i then carried s.words (k % 64) (i - k / 64) (by omega) else 0#64 }

/-- The members of both. The words in common are joined bit by bit; then the numbers from the second
size on are taken out, as far as its words may have reached. -/
def inter (w : Width) (s t : WordSums) : WordSums :=
  let common := { s with words := s.words.mapIdx fun i word => word &&& t.words[i]?.getD 0#64 }
  let stop := min s.size (w.wrap (wordCount t.size * 64))
  (List.range' t.size (stop - t.size)).foldl (fun s n => s.set n false) common

/-- The subset sums of `sizes`, each moved up by `base`, as far as `limit`. -/
def reachable (w : Width) (base : Nat) (sizes : List Nat) (limit : Nat) : WordSums :=
  let sums := sizes.foldl withItem ((filled (w.wrap (limit + 1)) false).set 0 true)
  if base = 0 then sums else sums.raised base

/-- The sum of 63 and 64 is carried into the second word, the sum of all three into the fourth. -/
example : (List.range 201).filter (reachable .bits64 0 [63, 64, 70] 200).contains =
    [0, 63, 64, 70, 127, 133, 134, 197] := by decide +kernel

end WordSums

end PackedLayout
