/-!
# Sets of sums

A set of numbers below a fixed size, held as the bits of one number, so that adding an item to
every sum is a shift. `reachable` collects the subset sums of a list of sizes.

- `contains_withItem`, `contains_raised`, `contains_inter`: what each operation does to the members;
- `Clean`: no bit is set at or past the size. Every operation keeps it.
-/

namespace PackedLayout

structure Sums where
  size : Nat
  bits : Nat
deriving DecidableEq

namespace Sums

def contains (s : Sums) (n : Nat) : Bool := decide (n < s.size) && s.bits.testBit n

/-- The number whose only bit is `n`. -/
def bit (n : Nat) : Nat := 1 <<< n

/-- The bits of `x` below `n`. -/
def lowBits (n x : Nat) : Nat := if x.log2 < n then x else x % bit n

/-- Every number below `size`, or none. -/
def filled (size : Nat) (value : Bool) : Sums := ⟨size, if value then bit size - 1 else 0⟩

/-- Only the sum of no item at all. -/
def zero (size : Nat) : Sums := ⟨size, lowBits size 1⟩

/-- Puts `n` in or takes it out; numbers past the size are left alone. -/
def set (s : Sums) (n : Nat) (value : Bool) : Sums :=
  if n < s.size ∧ s.bits.testBit n ≠ value then { s with bits := s.bits ^^^ bit n } else s

/-- Every member moved up by `k`. -/
def raised (s : Sums) (k : Nat) : Sums :=
  { s with bits := if k < s.size then lowBits s.size (s.bits <<< k) else 0 }

/-- The members, and every member with one item of size `k` added. -/
def withItem (s : Sums) (k : Nat) : Sums :=
  if 0 < k ∧ k < s.size then { s with bits := lowBits s.size (s.bits ||| s.bits <<< k) } else s

def inter (s t : Sums) : Sums := { s with bits := lowBits t.size (s.bits &&& t.bits) }

/-- The greatest member, or 0. -/
def largest (s : Sums) : Nat := s.bits.log2

/-- The bits `0`, `step`, `2 * step`, ... below `step * count`. -/
def stride (step count : Nat) : Nat := (bit (step * count) - 1) / (bit step - 1)

/-- The greatest member from `lo` to `hi` that is a multiple of `step`. -/
def largestMultiple? (s : Sums) (step lo hi : Nat) : Option Nat :=
  if hi < lo then none
  else
    let bits := lowBits (hi + 1) s.bits &&& stride step (hi / step + 1)
    if bits ≠ 0 ∧ lo ≤ bits.log2 then some bits.log2 else none

/-- The subset sums of `sizes`, each moved up by `base`, as far as `limit`. -/
def reachable (base : Nat) (sizes : List Nat) (limit : Nat) : Sums :=
  (sizes.foldl withItem (zero (limit + 1))).raised base

/-- No bit is set at or past the size. -/
def Clean (s : Sums) : Prop := ∀ n, s.size ≤ n → s.bits.testBit n = false

theorem testBit_bit (n m : Nat) : (bit n).testBit m = decide (n = m) := by
  simp [bit, Nat.one_shiftLeft, Nat.testBit_two_pow]

theorem lowBits_eq_mod (n x : Nat) : lowBits n x = x % bit n := by
  unfold lowBits
  split
  · rename_i low
    by_cases zero : x = 0
    · simp [zero]
    · rw [bit, Nat.one_shiftLeft, Nat.mod_eq_of_lt ((Nat.log2_lt zero).mp low)]
  · rfl

theorem testBit_lowBits (n x m : Nat) :
    (lowBits n x).testBit m = (decide (m < n) && x.testBit m) := by
  simp [lowBits_eq_mod, bit, Nat.one_shiftLeft, Nat.testBit_mod_two_pow]

theorem testBit_bit_sub_one (n m : Nat) : (bit n - 1).testBit m = decide (m < n) := by
  simp [bit, Nat.one_shiftLeft]

@[simp] theorem size_raised (s : Sums) (k : Nat) : (s.raised k).size = s.size := rfl

@[simp] theorem size_inter (s t : Sums) : (s.inter t).size = s.size := rfl

@[simp] theorem size_withItem (s : Sums) (k : Nat) : (s.withItem k).size = s.size := by
  unfold withItem; split <;> rfl

@[simp] theorem size_set (s : Sums) (n : Nat) (value : Bool) : (s.set n value).size = s.size := by
  unfold set; split <;> rfl

theorem contains_filled (size n : Nat) (value : Bool) :
    (filled size value).contains n = (decide (n < size) && value) := by
  cases value <;> simp [contains, filled, testBit_bit_sub_one]

theorem contains_zero (size n : Nat) : (zero size).contains n = decide (n < size ∧ n = 0) := by
  simp only [contains, zero, testBit_lowBits]
  cases n with
  | zero => by_cases h : 0 < size <;> simp [h]
  | succ n => simp [Nat.testBit_succ]

theorem contains_set (s : Sums) (n m : Nat) (value : Bool) :
    (s.set n value).contains m =
      if n < s.size ∧ n = m then value else s.contains m := by
  unfold set contains
  by_cases same : n = m
  · subst same
    by_cases inside : n < s.size
    · cases value <;> cases h : s.bits.testBit n <;>
        simp [inside, h, Nat.testBit_xor, testBit_bit]
    · simp [inside]
  · split <;> simp [same, Nat.testBit_xor, testBit_bit]

theorem contains_raised (s : Sums) (k n : Nat) :
    (s.raised k).contains n = (decide (k ≤ n ∧ n < s.size) && s.contains (n - k)) := by
  unfold raised contains
  by_cases inside : n < s.size
  · by_cases below : k ≤ n
    · have hk : k < s.size := Nat.lt_of_le_of_lt below inside
      have hn : n - k < s.size := Nat.lt_of_le_of_lt (Nat.sub_le n k) inside
      simp [inside, below, hk, hn, testBit_lowBits, Nat.testBit_shiftLeft]
    · by_cases hk : k < s.size <;>
        simp [inside, below, hk, testBit_lowBits, Nat.testBit_shiftLeft]
  · simp [inside]

theorem contains_withItem (s : Sums) (k n : Nat) :
    (s.withItem k).contains n =
      (s.contains n || decide (k ≤ n ∧ n < s.size) && s.contains (n - k)) := by
  unfold withItem
  by_cases inside : n < s.size
  · by_cases below : k ≤ n
    · have hk : k < s.size := Nat.lt_of_le_of_lt below inside
      have hn : n - k < s.size := Nat.lt_of_le_of_lt (Nat.sub_le n k) inside
      by_cases pos : 0 < k
      · simp [contains, inside, below, pos, hk, hn, testBit_lowBits, Nat.testBit_shiftLeft]
      · simp [contains, show k = 0 by omega]
    · split <;> simp [contains, inside, below, testBit_lowBits, Nat.testBit_shiftLeft]
  · split <;> simp [contains, inside]

theorem contains_inter (s t : Sums) (n : Nat) :
    (s.inter t).contains n = (s.contains n && t.contains n) := by
  unfold inter contains
  by_cases hs : n < s.size <;> by_cases ht : n < t.size <;> simp [hs, ht, testBit_lowBits]

theorem clean_filled (size : Nat) (value : Bool) : (filled size value).Clean := by
  intro n past
  cases value <;> simp_all [filled, testBit_bit_sub_one]

theorem clean_zero (size : Nat) : (zero size).Clean := by
  intro n past
  have outside : ¬n < size := Nat.not_lt.mpr past
  simp [zero, testBit_lowBits, outside]

theorem clean_set {s : Sums} (n : Nat) (value : Bool) (h : s.Clean) : (s.set n value).Clean := by
  intro m past
  rw [size_set] at past
  unfold set
  split
  · rename_i inside
    have differ : n ≠ m := Nat.ne_of_lt (Nat.lt_of_lt_of_le inside.1 past)
    simp [Nat.testBit_xor, testBit_bit, differ, h m past]
  · exact h m past

theorem clean_raised (s : Sums) (k : Nat) : (s.raised k).Clean := by
  intro n past
  have outside : ¬n < s.size := Nat.not_lt.mpr past
  unfold raised
  split <;> simp [testBit_lowBits, outside]

theorem clean_withItem {s : Sums} (k : Nat) (h : s.Clean) : (s.withItem k).Clean := by
  intro n past
  rw [size_withItem] at past
  have outside : ¬n < s.size := Nat.not_lt.mpr past
  unfold withItem
  split
  · simp [testBit_lowBits, outside]
  · exact h n past

theorem clean_inter {s : Sums} (t : Sums) (h : s.Clean) : (s.inter t).Clean := by
  intro n past
  have absent : s.bits.testBit n = false := h n past
  simp [inter, testBit_lowBits, absent]

end Sums

end PackedLayout
