import PackedLayout.Proofs.SubsetSums
import PackedLayout.SubsetSum.WordSums

/-!
# Sums in words

The words hold exactly the subset sums. Each operation on words does to the members what the
operation of the same name does on the bits of one number, and leaves no bit set past the size.

- `getLsbD_carried`: what a place gets from so many places below, within a word or across two;
- `getElem_joinDown`: going down, every word is joined with what the words were at the start;
- `contains_set`, `contains_withItem`, `contains_raised`, `contains_inter`: what each operation does
  to the members;
- `WordSums.Clean`: no bit is set at or past the size. Every operation keeps it;
- `WordSums.Tells`: words and one number have the same members. Every operation keeps it;
- `members_exact`: so the words hold the subset sums, without a lost carry or an item used twice.
-/

namespace PackedLayout

namespace WordSums

variable {count : Nat} {words others : Vector (BitVec 64) count} {s t : WordSums} {w : Width}

/-- A word of some words, and no bit past them. -/
def word (words : Vector (BitVec 64) count) (i : Nat) : BitVec 64 := words[i]?.getD 0#64

/-- A bit by its place in all words. -/
def bitAt (words : Vector (BitVec 64) count) (n : Nat) : Bool :=
  (word words (n / 64)).getLsbD (n % 64)

def bit (s : WordSums) (n : Nat) : Bool := bitAt s.words n

/-- No bit is set at or past the size. -/
def Clean (s : WordSums) : Prop := ∀ n, s.size ≤ n → s.bit n = false

/-! ## Words and masks -/

theorem word_eq_getElem {i : Nat} (inside : i < count) : word words i = words[i] := by
  rw [word, Vector.getElem?_eq_getElem inside, Option.getD_some]

theorem bitAt_eq_false {n : Nat} (past : count ≤ n / 64) : bitAt words n = false := by
  rw [bitAt, word, Vector.getElem?_eq_none past]
  exact BitVec.getLsbD_zero

theorem word_set {i j : Nat} {x : BitVec 64} (inside : i < count) :
    word (words.set i x inside) j = if i = j then x else word words j := by
  unfold word
  rw [Vector.getElem?_set]
  split <;> rfl

theorem getLsbD_mask {n : Nat} (below : n < 64) (m : Nat) :
    (mask n).getLsbD m = decide (n = m) := by
  have place := BitVec.getLsbD_twoPow (w := 64) n m
  rwa [decide_eq_true below, Bool.true_and] at place

theorem getLsbD_mask_sub_one {n : Nat} (below : n < 64) (m : Nat) :
    (mask n - 1#64).getLsbD m = decide (m < n) := by
  have value : (mask n).toNat = 2 ^ n := by
    rw [mask, BitVec.toNat_shiftLeft, Nat.shiftLeft_eq]
    have small : 2 ^ n < 2 ^ 64 := Nat.pow_lt_pow_right (by decide) below
    simpa using Nat.mod_eq_of_lt small
  have pos : 1#64 ≤ mask n := by
    rw [BitVec.le_def, value]
    exact Nat.one_le_two_pow
  rw [← BitVec.testBit_toNat, BitVec.toNat_sub_of_le pos, value]
  exact Nat.testBit_two_pow_sub_one n m

theorem and_mask_ne_zero (x : BitVec 64) {n : Nat} (below : n < 64) :
    (x &&& mask n != 0#64) = x.getLsbD n := by
  have both := BitVec.and_twoPow x n
  change x &&& mask n = if x.getLsbD n then mask n else 0#64 at both
  rw [both]
  have set : mask n ≠ 0#64 := by
    intro none
    have place := getLsbD_mask below n
    rw [none] at place
    simp at place
  cases x.getLsbD n <;> simp [set]

theorem contains_eq (s : WordSums) (n : Nat) :
    s.contains n = (decide (n < s.size) && s.bit n) := by
  unfold contains
  split
  · rename_i inside
    rw [and_mask_ne_zero _ (Nat.mod_lt n (by decide)), bit, bitAt,
      word_eq_getElem (div_lt_wordCount inside), decide_eq_true inside, Bool.true_and]
  · rename_i past
    rw [decide_eq_false past, Bool.false_and]

theorem Clean.contains_eq_bit (clean : s.Clean) (n : Nat) : s.contains n = s.bit n := by
  rw [contains_eq]
  by_cases inside : n < s.size
  · rw [decide_eq_true inside, Bool.true_and]
  · rw [clean n (Nat.not_lt.mp inside), Bool.and_false]

/-! ## The end of the last word -/

@[simp] theorem size_trim (s : WordSums) : s.trim.size = s.size := by
  unfold trim
  split <;> rfl

/-- Only a last word that is partly used has bits past the size. -/
theorem bit_eq_and {n : Nat} (used : s.size % 64 = 0 ∨ s.size / 64 ≠ n / 64) :
    s.bit n = (decide (n < s.size) && s.bit n) := by
  by_cases inside : n < s.size
  · rw [decide_eq_true inside, Bool.true_and]
  · rw [decide_eq_false inside, Bool.false_and]
    exact bitAt_eq_false (by unfold wordCount; omega)

theorem bit_trim (s : WordSums) (n : Nat) : s.trim.bit n = (decide (n < s.size) && s.bit n) := by
  unfold trim
  split
  · rename_i whole
    exact bit_eq_and (.inl whole)
  · rename_i partly
    have last : s.size / 64 < wordCount s.size := by unfold wordCount; omega
    simp only [bit, bitAt, word_set]
    split
    · rename_i same
      have low : n % 64 < s.size % 64 ↔ n < s.size := by omega
      rw [BitVec.getLsbD_and, getLsbD_mask_sub_one (Nat.mod_lt _ (by decide)), Bool.and_comm,
        ← same, word_eq_getElem last]
      simp only [low]
    · rename_i differ
      exact bit_eq_and (.inr differ)

theorem clean_trim (s : WordSums) : s.trim.Clean := by
  intro n past
  rw [size_trim] at past
  rw [bit_trim, decide_eq_false (Nat.not_lt.mpr past), Bool.false_and]

/-- Clearing the end of the last word takes no member out. -/
theorem contains_trim (s : WordSums) (n : Nat) : s.trim.contains n = s.contains n := by
  rw [s.clean_trim.contains_eq_bit, bit_trim, contains_eq]

/-! ## All numbers, or one -/

@[simp] theorem size_filled (size : Nat) (value : Bool) : (filled size value).size = size :=
  size_trim _

theorem clean_filled (size : Nat) (value : Bool) : (filled size value).Clean := clean_trim _

theorem contains_filled (size n : Nat) (value : Bool) :
    (filled size value).contains n = (decide (n < size) && value) := by
  rw [filled, contains_trim, contains_eq]
  by_cases inside : n < size
  · have below : n % 64 < 64 := Nat.mod_lt n (by decide)
    have held : bit ⟨size, .replicate _ (if value then BitVec.allOnes 64 else 0#64)⟩ n = value := by
      rw [bit, bitAt, word_eq_getElem (div_lt_wordCount inside), Vector.getElem_replicate]
      cases value with
      | true => rw [if_pos rfl, BitVec.getLsbD_allOnes, decide_eq_true below]
      | false => exact BitVec.getLsbD_zero
    rw [held]
  · simp [inside]

@[simp] theorem size_set (s : WordSums) (n : Nat) (value : Bool) :
    (s.set n value).size = s.size := by
  unfold set
  split <;> rfl

theorem bit_set (s : WordSums) (n m : Nat) (value : Bool) :
    (s.set n value).bit m = if n < s.size ∧ n = m then value else s.bit m := by
  unfold set
  split
  · rename_i inside
    have below : n % 64 < 64 := Nat.mod_lt n (by decide)
    simp only [bit, bitAt, word_set, inside, true_and]
    by_cases same : n = m
    · subst same
      cases value <;> simp [getLsbD_mask below, below, -BitVec.getLsbD_eq_getElem]
    · rw [if_neg same]
      split
      · rename_i together
        have apart : n % 64 ≠ m % 64 := by omega
        have below' : m % 64 < 64 := Nat.mod_lt m (by decide)
        rw [← together, word_eq_getElem (div_lt_wordCount inside)]
        cases value <;> simp [getLsbD_mask below, apart, below', -BitVec.getLsbD_eq_getElem]
      · rfl
  · rename_i past
    simp [past]

theorem contains_set (s : WordSums) (n m : Nat) (value : Bool) :
    (s.set n value).contains m = if n < s.size ∧ n = m then value else s.contains m := by
  rw [contains_eq, bit_set, size_set, contains_eq]
  split
  · rename_i there
    rw [decide_eq_true (there.2 ▸ there.1), Bool.true_and]
  · rfl

theorem clean_set (clean : s.Clean) (n : Nat) (value : Bool) : (s.set n value).Clean := by
  intro m past
  rw [size_set] at past
  rw [bit_set, if_neg (by omega), clean m past]

/-! ## Bits moved up -/

/-- What a place gets from `k` places below. The bits that leave the word below at the top come in
at the bottom, and the lowest word gets nothing from below. -/
theorem getLsbD_carried {k n : Nat} (reached : k / 64 ≤ n / 64)
    (inside : n / 64 - k / 64 < count) :
    (carried words (k % 64) (n / 64 - k / 64) inside).getLsbD (n % 64) =
      (decide (k ≤ n) && bitAt words (n - k)) := by
  have below : n % 64 < 64 := Nat.mod_lt n (by decide)
  unfold carried
  dsimp only
  by_cases high : k % 64 ≤ n % 64
  · -- the bit comes from the same word
    have place : (n - k) / 64 = n / 64 - k / 64 := by omega
    have within : (n - k) % 64 = n % 64 - k % 64 := by omega
    have moved : (words[n / 64 - k / 64] <<< (k % 64)).getLsbD (n % 64) = bitAt words (n - k) := by
      rw [bitAt, place, within, word_eq_getElem inside, BitVec.getLsbD_shiftLeft]
      simp [below, Nat.not_lt.mpr high]
    have none : (words[n / 64 - k / 64 - 1] >>> (64 - k % 64)).getLsbD (n % 64) = false := by
      rw [BitVec.getLsbD_ushiftRight]
      exact BitVec.getLsbD_of_ge _ _ (by omega)
    rw [decide_eq_true (show k ≤ n by omega), Bool.true_and]
    split
    · rw [BitVec.getLsbD_or, moved, none, Bool.or_false]
    · exact moved
  · -- the bit comes from the word below, if there is one
    have none : (words[n / 64 - k / 64] <<< (k % 64)).getLsbD (n % 64) = false := by
      rw [BitVec.getLsbD_shiftLeft]
      simp [Nat.lt_of_not_le high]
    split
    · rename_i lower
      have place : (n - k) / 64 = n / 64 - k / 64 - 1 := by omega
      have within : (n - k) % 64 = 64 - k % 64 + n % 64 := by omega
      rw [BitVec.getLsbD_or, none, Bool.false_or, BitVec.getLsbD_ushiftRight,
        decide_eq_true (show k ≤ n by omega), Bool.true_and, bitAt, place, within,
        word_eq_getElem (by omega)]
    · rename_i lowest
      rw [none, decide_eq_false (show ¬k ≤ n by omega), Bool.false_and]

/-- What is carried into a word depends on the words up to its source. -/
theorem carried_congr {bits source : Nat} {inside : source < count}
    (same : ∀ i (within : i < count), i ≤ source → words[i] = others[i]) :
    carried words bits source inside = carried others bits source inside := by
  unfold carried
  rw [same source inside (Nat.le_refl _), same (source - 1) (by omega) (Nat.sub_le _ _)]

/-- Going down, every word is joined with what the words were at the start: a word that was written
is never a source of the words below it. -/
theorem getElem_joinDown {skip bits i j : Nat} (within : i ≤ count) (inside : j < count) :
    (joinDown skip bits i within words)[j] =
      if skip ≤ j ∧ j < i then words[j] ||| carried words bits (j - skip) (by omega)
      else words[j] := by
  -- on the bound: the words below it still are what they were at the start
  induction i generalizing words with
  | zero => simp [joinDown]
  | succ i ih =>
    by_cases reached : skip ≤ i
    · simp only [joinDown, if_pos reached, ih]
      by_cases last : i = j
      · subst last
        simp [reached]
      · have kept (x : BitVec 64) {m : Nat} (inside : m < count) (differ : i ≠ m) :
            (words.set i x within)[m] = words[m] := Vector.getElem_set_ne within inside differ
        have bound : j < i + 1 ↔ j < i := by omega
        simp only [kept _ inside last, bound]
        split
        · rename_i above
          rw [carried_congr fun m inside le => kept _ inside (by omega)]
        · rfl
    · simp only [joinDown, if_neg reached]
      rw [if_neg (by omega)]

theorem bitAt_joinDown {k n : Nat} (inside : n / 64 < count) :
    bitAt (joinDown (k / 64) (k % 64) count (Nat.le_refl _) words) n =
      (bitAt words n || decide (k ≤ n) && bitAt words (n - k)) := by
  have own : bitAt words n = words[n / 64].getLsbD (n % 64) := by
    rw [bitAt, word_eq_getElem inside]
  rw [own, bitAt, word_eq_getElem inside, getElem_joinDown]
  split
  · rename_i reached
    rw [BitVec.getLsbD_or, getLsbD_carried reached.1]
  · have short : ¬k ≤ n := by omega
    rw [decide_eq_false short, Bool.false_and, Bool.or_false]

@[simp] theorem size_withItem (s : WordSums) (k : Nat) : (s.withItem k).size = s.size := by
  unfold withItem
  split
  · rfl
  · exact size_trim _

theorem contains_withItem (s : WordSums) (k n : Nat) :
    (s.withItem k).contains n =
      (s.contains n || decide (k ≤ n ∧ n < s.size) && s.contains (n - k)) := by
  by_cases inside : n < s.size
  · unfold withItem
    split
    · rename_i idle
      obtain rfl | past := idle
      · simp
      · simp [show ¬k ≤ n by omega]
    · have before : n - k < s.size := Nat.lt_of_le_of_lt (Nat.sub_le n k) inside
      rw [contains_trim, contains_eq, contains_eq, contains_eq, bit,
        bitAt_joinDown (div_lt_wordCount inside)]
      simp [inside, before, bit]
  · simp [contains_eq, inside]

theorem clean_withItem (clean : s.Clean) (k : Nat) : (s.withItem k).Clean := by
  unfold withItem
  split
  · exact clean
  · exact clean_trim _

@[simp] theorem size_raised (s : WordSums) (k : Nat) : (s.raised k).size = s.size := size_trim _

theorem contains_raised (s : WordSums) (k n : Nat) :
    (s.raised k).contains n = (decide (k ≤ n ∧ n < s.size) && s.contains (n - k)) := by
  rw [raised, contains_trim, contains_eq, contains_eq]
  by_cases inside : n < s.size
  · have before : n - k < s.size := Nat.lt_of_le_of_lt (Nat.sub_le n k) inside
    simp only [bit]
    rw [bitAt, word_eq_getElem (div_lt_wordCount inside), Vector.getElem_ofFn]
    split
    · rename_i reached
      rw [getLsbD_carried reached]
      simp [inside, before]
    · rename_i above
      have short : ¬k ≤ n := fun le => above (Nat.div_le_div_right le)
      simp [short]
  · simp [inside]

theorem clean_raised (s : WordSums) (k : Nat) : (s.raised k).Clean := clean_trim _

/-! ## Members in common -/

theorem size_foldl_clear (ns : List Nat) (s : WordSums) :
    (ns.foldl (fun s n => s.set n false) s).size = s.size := by
  induction ns generalizing s with
  | nil => rfl
  | cons n ns ih => rw [List.foldl_cons, ih, size_set]

theorem contains_foldl_clear (ns : List Nat) (s : WordSums) (m : Nat) :
    (ns.foldl (fun s n => s.set n false) s).contains m = (s.contains m && decide (m ∉ ns)) := by
  induction ns generalizing s with
  | nil => simp
  | cons n ns ih =>
    rw [List.foldl_cons, ih, contains_set]
    by_cases same : n = m
    · subst same
      by_cases inside : n < s.size <;> simp [inside, contains_eq]
    · have same' : m ≠ n := Ne.symm same
      simp [same, same']

theorem clean_foldl_clear (ns : List Nat) (clean : s.Clean) :
    (ns.foldl (fun s n => s.set n false) s).Clean := by
  induction ns generalizing s with
  | nil => exact clean
  | cons n ns ih => exact ih (clean_set clean n false)

theorem bitAt_mapIdx_and (words : Vector (BitVec 64) count) (t : WordSums) (n : Nat) :
    bitAt (words.mapIdx fun i x => x &&& t.words[i]?.getD 0#64) n =
      (bitAt words n && t.bit n) := by
  by_cases inside : n / 64 < count
  · rw [bitAt, word_eq_getElem inside, Vector.getElem_mapIdx, BitVec.getLsbD_and, bitAt,
      word_eq_getElem inside]
    rfl
  · rw [bitAt_eq_false (Nat.not_lt.mp inside), bitAt_eq_false (Nat.not_lt.mp inside),
      Bool.false_and]

@[simp] theorem size_inter (w : Width) (s t : WordSums) : (s.inter w t).size = s.size :=
  size_foldl_clear _ _

/-- The numbers taken out at the end are no members, because the second set has none of them. -/
theorem contains_inter (w : Width) (s : WordSums) (clean : t.Clean) (n : Nat) :
    (s.inter w t).contains n = (s.contains n && t.contains n) := by
  unfold inter
  rw [contains_foldl_clear, contains_eq, clean.contains_eq_bit, contains_eq]
  simp only [bit, bitAt_mapIdx_and]
  by_cases taken : n ∈ List.range' t.size
      (min s.size (w.wrap (wordCount t.size * 64)) - t.size)
  · have past : t.bit n = false := clean n (List.mem_range'_1.mp taken).1
    simp only [bit] at past
    simp [past]
  · simp [taken, Bool.and_assoc]

theorem clean_inter (w : Width) (clean : s.Clean) (t : WordSums) : (s.inter w t).Clean := by
  refine clean_foldl_clear _ fun n past => ?_
  have none : bitAt s.words n = false := clean n past
  rw [bit, bitAt_mapIdx_and, none, Bool.false_and]

/-! ## The same members as one number -/

/-- The words have the size and the members of a set held in one number. -/
structure Tells (s : WordSums) (sums : Sums) : Prop where
  size_eq : s.size = sums.size
  contains_eq : ∀ n, s.contains n = sums.contains n

namespace Tells

variable {sums others : Sums}

theorem filled (size : Nat) (value : Bool) :
    (WordSums.filled size value).Tells (Sums.filled size value) :=
  ⟨size_filled size value, fun n => by rw [contains_filled, Sums.contains_filled]⟩

theorem set (h : s.Tells sums) (n : Nat) (value : Bool) :
    (s.set n value).Tells (sums.set n value) :=
  ⟨by rw [size_set, Sums.size_set, h.size_eq],
    fun m => by rw [contains_set, Sums.contains_set, h.size_eq, h.contains_eq]⟩

theorem withItem (h : s.Tells sums) (k : Nat) : (s.withItem k).Tells (sums.withItem k) :=
  ⟨by rw [size_withItem, Sums.size_withItem, h.size_eq], fun n => by
    rw [contains_withItem, Sums.contains_withItem, h.size_eq, h.contains_eq, h.contains_eq]⟩

theorem foldl_withItem (h : s.Tells sums) (sizes : List Nat) :
    (sizes.foldl WordSums.withItem s).Tells (sizes.foldl Sums.withItem sums) := by
  induction sizes generalizing s sums with
  | nil => exact h
  | cons k sizes ih => exact ih (h.withItem k)

theorem raised (h : s.Tells sums) (k : Nat) : (s.raised k).Tells (sums.raised k) :=
  ⟨by rw [size_raised, Sums.size_raised, h.size_eq], fun n => by
    rw [contains_raised, Sums.contains_raised, h.size_eq, h.contains_eq]⟩

theorem inter (h : s.Tells sums) (h' : t.Tells others) (clean : t.Clean) :
    (s.inter w t).Tells (sums.inter others) :=
  ⟨by rw [size_inter, Sums.size_inter, h.size_eq], fun n => by
    rw [contains_inter w s clean, Sums.contains_inter, h.contains_eq, h'.contains_eq]⟩

end Tells

/-- The words start with the sum of no item. -/
theorem tells_zero (size : Nat) : ((filled size false).set 0 true).Tells (.zero size) := by
  have tells := (Tells.filled size false).set 0 true
  refine ⟨tells.size_eq.trans (Sums.size_set _ _ _), fun n => ?_⟩
  rw [tells.contains_eq, Sums.contains_set, Sums.contains_filled, Sums.contains_zero]
  by_cases first : 0 = n
  · subst first
    by_cases inside : 0 < size <;> simp [inside, Sums.filled]
  · simp [first, Ne.symm first]

/-- The words hold what the search looks through. -/
theorem tells_reachable {limit : Nat} (fits : w.Fits (limit + 1)) (base : Nat) (sizes : List Nat) :
    (reachable w base sizes limit).Tells (.reachable base sizes limit) := by
  unfold reachable Sums.reachable
  rw [fits.wrap]
  have sums := (tells_zero (limit + 1)).foldl_withItem sizes
  dsimp only
  split
  · rename_i none
    subst none
    refine ⟨sums.size_eq, fun n => ?_⟩
    rw [Sums.contains_raised, sums.contains_eq]
    by_cases inside : n < (sizes.foldl Sums.withItem (.zero (limit + 1))).size
    · simp [inside]
    · simp [inside, Sums.contains]
  · exact sums.raised base

theorem clean_reachable (w : Width) (base : Nat) (sizes : List Nat) (limit : Nat) :
    (reachable w base sizes limit).Clean := by
  have clean {s : WordSums} (clean : s.Clean) : (sizes.foldl withItem s).Clean := by
    induction sizes generalizing s with
    | nil => exact clean
    | cons k sizes ih => exact ih (clean_withItem clean k)
  unfold reachable
  dsimp only
  split
  · exact clean (clean_set (clean_filled _ _) 0 true)
  · exact clean_raised _ base

/-- The words hold exactly the subset sums, moved up by the base, as far as the limit: the set that
the search looks through in one number. The members of two sets in common, of whatever sizes, are
those of both. No operation leaves a bit set at or past the size. -/
theorem members_exact (w : Width) :
    (∀ base sizes limit, limit < Width.words - 1 →
      (reachable w base sizes limit).Clean ∧
      (reachable w base sizes limit).Tells (.reachable base sizes limit) ∧
      ∀ n, (reachable w base sizes limit).contains n = true ↔
        n ≤ limit ∧ ∃ sum, SubsetSum sizes sum ∧ n = base + sum) ∧
    (∀ s t : WordSums, t.Clean →
      (∀ sums others, s.Tells sums → t.Tells others → (s.inter w t).Tells (sums.inter others)) ∧
      ∀ n, (s.inter w t).contains n = true ↔
        n < s.size ∧ n < t.size ∧ s.bit n = true ∧ t.bit n = true) ∧
    (∀ size value, (filled size value).Clean) ∧
    ∀ s : WordSums, s.Clean →
      (∀ n value, (s.set n value).Clean) ∧ (∀ k, (s.withItem k).Clean) ∧
      (∀ k, (s.raised k).Clean) ∧ ∀ t, (s.inter w t).Clean := by
  refine ⟨fun base sizes limit below => ?_, fun s t clean => ⟨?_, fun n => ?_⟩, clean_filled,
    fun s clean => ⟨clean_set clean, clean_withItem clean, clean_raised s, clean_inter w clean⟩⟩
  · have fits : w.Fits (limit + 1) := Width.checked_of_lt (by omega)
    have tells := tells_reachable fits base sizes
    refine ⟨clean_reachable w base sizes limit, tells, fun n => ?_⟩
    rw [tells.contains_eq, Sums.contains_reachable]
    constructor
    · rintro ⟨within, above, sum⟩
      exact ⟨within, n - base, sum, by omega⟩
    · rintro ⟨within, sum, reached, rfl⟩
      exact ⟨within, Nat.le_add_right base sum, by rwa [Nat.add_sub_cancel_left]⟩
  · exact fun sums others tells tells' => tells.inter tells' clean
  · rw [contains_inter w s clean, contains_eq, contains_eq]
    simp only [Bool.and_eq_true, decide_eq_true_eq]
    exact ⟨fun ⟨⟨below, set⟩, below', set'⟩ => ⟨below, below', set, set'⟩,
      fun ⟨below, below', set, set'⟩ => ⟨⟨below, set⟩, below', set'⟩⟩

/-- The sum of 64 and 70 is carried twice and moved up by the base. Of two sets that end inside
different words, the shorter one cuts the longer one off. -/
theorem members_exact_across_words :
    200 < Width.words - 1 ∧ (reachable .bits64 8 [63, 64, 70] 200).contains 142 = true ∧
      ((filled 70 true).set 65 false).Clean ∧
      ((filled 130 true).inter .bits64 ((filled 70 true).set 65 false)).contains 69 = true ∧
      ((filled 130 true).inter .bits64 ((filled 70 true).set 65 false)).contains 65 = false ∧
      ((filled 130 true).inter .bits64 ((filled 70 true).set 65 false)).contains 70 = false ∧
      (filled 130 true).Clean ∧ ((filled 130 true).withItem 65).Clean := by
  obtain ⟨sums, common, clean, kept⟩ := members_exact .bits64
  have below : 200 < Width.words - 1 := by decide
  have part : SubsetSum [63, 64, 70] 134 := ⟨[64, 70], List.sublist_cons_self 63 _, rfl⟩
  have long : (filled 130 true).Clean := clean 130 true
  have short : ((filled 70 true).set 65 false).Clean := (kept _ (clean 70 true)).1 65 false
  have both := (common (filled 130 true) _ short).2
  refine ⟨below, ((sums 8 [63, 64, 70] 200 below).2.2 142).mpr ⟨by decide, 134, part, rfl⟩,
    short, (both 69).mpr (by decide +kernel), ?_, ?_, long, (kept _ long).2.1 65⟩
  · exact Bool.eq_false_iff.mpr fun member => absurd ((both 65).mp member) (by decide +kernel)
  · exact Bool.eq_false_iff.mpr fun member => absurd ((both 70).mp member) (by decide +kernel)

end WordSums

end PackedLayout
