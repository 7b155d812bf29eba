import Mathlib.Data.List.GetD
import Mathlib.Data.List.Induction
import PackedLayout.Proofs.Exactness
import PackedLayout.SubsetSum.Choice

/-!
# Subset sums

A number is a subset sum of some sizes when a sublist of them adds up to it.

- `contains_reachable`: the reachable sums are the subset sums, moved up by the base;
- `SumHistory.TakenApart`: which sizes a sum is made of, from the last size back;
- `exists_bestSubset`: a best subset always exists, and no subset within the target has a greater
  sum;
- `largestMultiple?_spec`, `exists_largestMultiple?`: the greatest multiple found in a range is a
  member of it, and one is found if there is any.
-/

namespace PackedLayout

/-- The exact sum of some numbers. -/
abbrev exactSum (ns : List Nat) : Nat := Width.unbounded.sum ns

theorem exactSum_nil : exactSum [] = 0 := rfl

theorem exactSum_cons (n : Nat) (ns : List Nat) : exactSum (n :: ns) = n + exactSum ns := rfl

theorem exactSum_append (ns ms : List Nat) :
    exactSum (ns ++ ms) = exactSum ns + exactSum ms := by
  induction ns with
  | nil => rw [List.nil_append, exactSum_nil, Nat.zero_add]
  | cons n ns ih => rw [List.cons_append, exactSum_cons, exactSum_cons, ih, Nat.add_assoc]

theorem exactSum_perm {ns ms : List Nat} (h : ns.Perm ms) : exactSum ns = exactSum ms := by
  induction h with
  | nil => rfl
  | cons n _ ih => rw [exactSum_cons, exactSum_cons, ih]
  | swap n m ns => simp only [exactSum_cons]; omega
  | trans _ _ ih₁ ih₂ => exact ih₁.trans ih₂

theorem exactSum_le_of_sublist {ns ms : List Nat} (h : ns.Sublist ms) :
    exactSum ns ≤ exactSum ms := by
  induction h with
  | slnil => exact Nat.le_refl _
  | cons n _ ih => rw [exactSum_cons]; omega
  | cons_cons n _ ih => rw [exactSum_cons, exactSum_cons]; omega

/-- Some of the sizes, each used at most once, add up to `n`. -/
def SubsetSum (sizes : List Nat) (n : Nat) : Prop :=
  ∃ part, part.Sublist sizes ∧ exactSum part = n

theorem SubsetSum.zero (sizes : List Nat) : SubsetSum sizes 0 := ⟨[], List.nil_sublist _, rfl⟩

theorem subsetSum_nil {n : Nat} : SubsetSum [] n ↔ n = 0 := by
  constructor
  · rintro ⟨part, none, rfl⟩
    rw [List.sublist_nil.mp none, exactSum_nil]
  · rintro rfl
    exact .zero []

theorem subsetSum_cons {k n : Nat} {sizes : List Nat} :
    SubsetSum (k :: sizes) n ↔ SubsetSum sizes n ∨ k ≤ n ∧ SubsetSum sizes (n - k) := by
  constructor
  · rintro ⟨part, sub, rfl⟩
    cases sub with
    | cons _ sub => exact .inl ⟨part, sub, rfl⟩
    | cons_cons _ sub =>
      rename_i rest
      rw [exactSum_cons]
      exact .inr ⟨Nat.le_add_right _ _, rest, sub, by omega⟩
  · rintro (⟨part, sub, rfl⟩ | ⟨le, part, sub, same⟩)
    · exact ⟨part, .cons k sub, rfl⟩
    · exact ⟨k :: part, .cons_cons k sub, by rw [exactSum_cons]; omega⟩

theorem subsetSum_perm {sizes others : List Nat} (h : sizes.Perm others) {n : Nat} :
    SubsetSum sizes n → SubsetSum others n := by
  rintro ⟨part, sub, rfl⟩
  obtain ⟨other, perm, sub⟩ := List.exists_perm_sublist sub h
  exact ⟨other, sub, exactSum_perm perm⟩

theorem subsetSum_concat {k n : Nat} {sizes : List Nat} :
    SubsetSum (sizes ++ [k]) n ↔ SubsetSum sizes n ∨ k ≤ n ∧ SubsetSum sizes (n - k) := by
  rw [← subsetSum_cons]
  exact ⟨subsetSum_perm (List.perm_append_singleton k sizes),
    subsetSum_perm (List.perm_append_singleton k sizes).symm⟩

namespace Sums

theorem lt_size_of_contains {s : Sums} {n : Nat} (h : s.contains n = true) : n < s.size := by
  rw [Sums.contains, Bool.and_eq_true, decide_eq_true_eq] at h
  exact h.1

theorem contains_foldl_withItem (sizes : List Nat) (s : Sums) (n : Nat) :
    (sizes.foldl withItem s).contains n = true ↔
      n < s.size ∧ ∃ m, m ≤ n ∧ SubsetSum sizes m ∧ s.contains (n - m) = true := by
  induction sizes generalizing s with
  | nil =>
    constructor
    · intro h
      have inside := lt_size_of_contains h
      exact ⟨inside, 0, Nat.zero_le n, .zero [], h⟩
    · rintro ⟨_, m, _, sum, h⟩
      rw [subsetSum_nil.mp sum] at h
      exact h
  | cons k sizes ih =>
    rw [List.foldl_cons, ih, size_withItem]
    constructor
    · rintro ⟨inside, m, le, sum, h⟩
      rw [contains_withItem, Bool.or_eq_true, Bool.and_eq_true, decide_eq_true_eq] at h
      obtain h | ⟨⟨room, _⟩, h⟩ := h
      · exact ⟨inside, m, le, subsetSum_cons.mpr (.inl sum), h⟩
      · refine ⟨inside, m + k, by omega, subsetSum_cons.mpr (.inr ⟨by omega, ?_⟩), ?_⟩
        · rwa [Nat.add_sub_cancel]
        · rwa [Nat.sub_add_eq]
    · rintro ⟨inside, m, le, sum, h⟩
      refine ⟨inside, ?_⟩
      obtain sum | ⟨room, sum⟩ := subsetSum_cons.mp sum
      · exact ⟨m, le, sum, by rw [contains_withItem, h, Bool.true_or]⟩
      · refine ⟨m - k, by omega, sum, ?_⟩
        have back : n - (m - k) - k = n - m := by omega
        have within : k ≤ n - (m - k) ∧ n - (m - k) < s.size := by omega
        rw [contains_withItem, back, h]
        simp [within]

theorem size_foldl_withItem (sizes : List Nat) (s : Sums) :
    (sizes.foldl withItem s).size = s.size := by
  induction sizes generalizing s with
  | nil => rfl
  | cons k sizes ih => rw [List.foldl_cons, ih, size_withItem]

/-- The reachable sums are exactly the base plus a subset sum, as far as the limit. -/
theorem contains_reachable (base : Nat) (sizes : List Nat) (limit n : Nat) :
    (reachable base sizes limit).contains n = true ↔
      n ≤ limit ∧ base ≤ n ∧ SubsetSum sizes (n - base) := by
  unfold reachable
  rw [contains_raised, size_foldl_withItem, Bool.and_eq_true, decide_eq_true_eq,
    contains_foldl_withItem]
  show (base ≤ n ∧ n < limit + 1) ∧ n - base < limit + 1 ∧ _ ↔ _
  constructor
  · rintro ⟨⟨above, inside⟩, _, m, le, sum, h⟩
    rw [contains_zero, decide_eq_true_eq] at h
    have same : m = n - base := by omega
    exact ⟨by omega, above, same ▸ sum⟩
  · rintro ⟨inside, above, sum⟩
    refine ⟨⟨above, by omega⟩, by omega, n - base, Nat.le_refl _, sum, ?_⟩
    rw [contains_zero, decide_eq_true_eq, Nat.sub_self]
    exact ⟨Nat.zero_lt_succ limit, rfl⟩

theorem clean_reachable (base : Nat) (sizes : List Nat) (limit : Nat) :
    (reachable base sizes limit).Clean := clean_raised _ base

/-- No bit is above the logarithm. -/
theorem le_log2_of_testBit {x n : Nat} (h : x.testBit n = true) : n ≤ x.log2 := by
  have big := Nat.ge_two_pow_of_testBit h
  have pos : x ≠ 0 := by
    rintro rfl
    simp at h
  exact (Nat.le_log2 pos).mpr big

theorem testBit_log2 {x : Nat} (pos : x ≠ 0) : x.testBit x.log2 = true := by
  obtain ⟨i, ge, set⟩ := Nat.exists_ge_and_testBit_of_ge_two_pow (Nat.log2_self_le pos)
  have same := Nat.le_antisymm (le_log2_of_testBit set) ge
  rwa [same] at set

theorem Clean.contains {s : Sums} (clean : s.Clean) {n : Nat} (h : s.bits.testBit n = true) :
    s.contains n = true := by
  have inside : n < s.size := by
    by_contra past
    rw [clean n (Nat.not_lt.mp past)] at h
    exact Bool.noConfusion h
  simp [Sums.contains, inside, h]

theorem testBit_of_contains {s : Sums} {n : Nat} (h : s.contains n = true) :
    s.bits.testBit n = true := by
  rw [Sums.contains, Bool.and_eq_true] at h
  exact h.2

theorem le_largest {s : Sums} {n : Nat} (h : s.contains n = true) : n ≤ s.largest :=
  le_log2_of_testBit (testBit_of_contains h)

theorem contains_largest {s : Sums} (clean : s.Clean) {n : Nat} (h : s.contains n = true) :
    s.contains s.largest = true := by
  have pos : s.bits ≠ 0 := by
    intro none
    have set := testBit_of_contains h
    rw [none] at set
    simp at set
  exact clean.contains (testBit_log2 pos)

theorem bit_pos (n : Nat) : 0 < bit n := by
  rw [bit, Nat.one_shiftLeft]
  exact Nat.two_pow_pos n

theorem bit_add (n m : Nat) : bit (n + m) = bit n * bit m := by
  simp only [bit, Nat.one_shiftLeft, Nat.pow_add]

theorem stride_zero (step : Nat) : stride step 0 = 0 := by
  simp [stride, bit]

theorem bit_mul_succ_sub_one (step count : Nat) :
    bit (step * (count + 1)) - 1 = bit step * (bit (step * count) - 1) + (bit step - 1) := by
  have one := bit_pos (step * count)
  have grown := Nat.le_mul_of_pos_right (bit step) one
  have pos := bit_pos step
  rw [Nat.mul_succ, bit_add, Nat.mul_comm (bit (step * count)), Nat.mul_sub, Nat.mul_one]
  omega

theorem bit_sub_one_dvd (step count : Nat) : (bit step - 1) ∣ (bit (step * count) - 1) := by
  induction count with
  | zero => exact Nat.dvd_zero _
  | succ count ih =>
    rw [bit_mul_succ_sub_one]
    exact Nat.dvd_add (Nat.dvd_mul_left_of_dvd ih _) (Nat.dvd_refl _)

theorem stride_succ {step : Nat} (pos : 0 < step) (count : Nat) :
    stride step (count + 1) = bit step * stride step count + 1 := by
  have big : 0 < bit step - 1 := by
    have : 1 < bit step := by
      rw [bit, Nat.one_shiftLeft]
      exact Nat.one_lt_two_pow (Nat.ne_of_gt pos)
    omega
  unfold stride
  obtain ⟨q, hq⟩ := bit_sub_one_dvd step count
  rw [bit_mul_succ_sub_one, hq, Nat.add_div_right _ big, Nat.mul_div_cancel_left q big,
    Nat.mul_left_comm, Nat.mul_div_cancel_left _ big]

/-- The bits of a stride are the multiples of the step. -/
theorem testBit_stride {step : Nat} (pos : 0 < step) (count n : Nat) :
    (stride step count).testBit n = true ↔ n < step * count ∧ step ∣ n := by
  induction count generalizing n with
  | zero => simp [stride_zero]
  | succ count ih =>
    rw [stride_succ pos]
    by_cases low : n < step
    · have bits : (bit step * stride step count + 1).testBit n = decide (n = 0) := by
        rw [bit, Nat.one_shiftLeft,
          Nat.testBit_two_pow_mul_add _ (Nat.one_lt_two_pow (by omega)), if_pos low]
        cases n <;> simp [Nat.testBit_succ]
      rw [bits, decide_eq_true_eq]
      constructor
      · rintro rfl
        exact ⟨Nat.mul_pos pos (Nat.succ_pos count), Nat.dvd_zero step⟩
      · rintro ⟨_, whole⟩
        exact Nat.eq_zero_of_dvd_of_lt whole low
    · rw [bit, Nat.one_shiftLeft,
        Nat.testBit_two_pow_mul_add _ (Nat.one_lt_two_pow (by omega)), if_neg low, ih,
        Nat.mul_succ, Nat.dvd_sub_iff_left (Nat.not_lt.mp low) (Nat.dvd_refl step)]
      omega

/-- The bits that are looked through for a multiple are the multiples in the range and the set. -/
theorem testBit_multiples {step : Nat} (pos : 0 < step) (s : Sums) (hi n : Nat) :
    (lowBits (hi + 1) s.bits &&& stride step (hi / step + 1)).testBit n = true ↔
      n ≤ hi ∧ step ∣ n ∧ s.bits.testBit n = true := by
  rw [Nat.testBit_and, Bool.and_eq_true, testBit_lowBits, testBit_stride pos, Bool.and_eq_true,
    decide_eq_true_eq]
  have reach : n ≤ hi → n < step * (hi / step + 1) := fun le => by
    have := Nat.lt_mul_div_succ hi pos
    omega
  constructor
  · rintro ⟨⟨inside, set⟩, _, whole⟩
    exact ⟨Nat.le_of_lt_succ inside, whole, set⟩
  · rintro ⟨inside, whole, set⟩
    exact ⟨⟨Nat.lt_succ_of_le inside, set⟩, reach inside, whole⟩

/-- The greatest multiple found in a range is a member of the range and of the set, and no other
such multiple is greater. -/
theorem largestMultiple?_spec {s : Sums} {step lo hi n : Nat} (pos : 0 < step) (clean : s.Clean)
    (h : s.largestMultiple? step lo hi = some n) :
    (lo ≤ n ∧ n ≤ hi ∧ step ∣ n ∧ s.contains n = true) ∧
      ∀ m, m ≤ hi → step ∣ m → s.contains m = true → m ≤ n := by
  unfold largestMultiple? at h
  split at h
  · contradiction
  · simp only at h
    split at h
    · rename_i found
      obtain ⟨some, above⟩ := found
      cases h
      obtain ⟨inside, whole, set⟩ := (testBit_multiples pos s hi _).mp (testBit_log2 some)
      refine ⟨⟨above, inside, whole, clean.contains set⟩, fun m le whole set => ?_⟩
      exact le_log2_of_testBit
        ((testBit_multiples pos s hi m).mpr ⟨le, whole, testBit_of_contains set⟩)
    · contradiction

/-- A multiple in the range and the set is found, or a greater one. -/
theorem exists_largestMultiple? {s : Sums} {step lo hi n : Nat} (pos : 0 < step) (above : lo ≤ n)
    (within : n ≤ hi) (whole : step ∣ n) (member : s.contains n = true) :
    ∃ m, s.largestMultiple? step lo hi = some m ∧ n ≤ m := by
  have set := (testBit_multiples pos s hi n).mpr ⟨within, whole, testBit_of_contains member⟩
  have top := le_log2_of_testBit set
  have some : lowBits (hi + 1) s.bits &&& stride step (hi / step + 1) ≠ 0 := by
    intro none
    simp [none] at set
  refine ⟨_, ?_, top⟩
  unfold largestMultiple?
  rw [if_neg (by omega)]
  exact if_pos ⟨some, Nat.le_trans above top⟩

end Sums

section Masks

variable {α β : Type}

theorem chosen_take (x : α) (xs : List α) (mask : List Bool) :
    chosen (x :: xs) (true :: mask) = x :: chosen xs mask := by simp [chosen]

theorem chosen_leave (x : α) (xs : List α) (mask : List Bool) :
    chosen (x :: xs) (false :: mask) = chosen xs mask := by simp [chosen]

theorem chosen_sublist (items : List α) (mask : List Bool) : (chosen items mask).Sublist items := by
  induction items generalizing mask with
  | nil => exact List.Sublist.refl _
  | cons x xs ih =>
    cases mask with
    | nil => simp [chosen]
    | cons b mask =>
      cases b with
      | true => rw [chosen_take]; exact (ih mask).cons_cons x
      | false => rw [chosen_leave]; exact (ih mask).cons x

theorem chosen_map (f : α → β) (items : List α) (mask : List Bool) :
    chosen (items.map f) mask = (chosen items mask).map f := by
  induction items generalizing mask with
  | nil => rfl
  | cons x xs ih =>
    cases mask with
    | nil => simp [chosen]
    | cons b mask =>
      cases b with
      | true => rw [List.map_cons, chosen_take, chosen_take, ih, List.map_cons]
      | false => rw [List.map_cons, chosen_leave, chosen_leave, ih]

theorem chosen_concat {items : List α} {mask : List Bool} (each : mask.length = items.length)
    (x : α) (b : Bool) :
    chosen (items ++ [x]) (mask ++ [b]) = chosen items mask ++ if b then [x] else [] := by
  unfold chosen
  rw [List.zip_append each.symm, List.filter_append, List.map_append]
  cases b <;> rfl

/-- The positions a mask takes, in ascending order. -/
def positions (mask : List Bool) : List Nat :=
  (List.range mask.length).filter fun i => mask.getD i false

theorem positions_concat (mask : List Bool) (b : Bool) :
    positions (mask ++ [b]) = positions mask ++ if b then [mask.length] else [] := by
  have front : ∀ i ∈ List.range mask.length,
      (mask ++ [b]).getD i false = mask.getD i false := by
    intro i inside
    exact List.getD_append _ _ _ _ (List.mem_range.mp inside)
  unfold positions
  rw [List.length_append, List.length_singleton, List.range_succ, List.filter_append,
    List.filter_congr front]
  cases b <;> simp

end Masks

namespace SumHistory

theorem of_concat (target : Nat) (sizes : List Nat) (k : Nat) :
    of target (sizes ++ [k]) = add target (of target sizes) k := by
  simp [of, List.foldl_append]

theorem size_reached (target : Nat) (sizes : List Nat) :
    (of target sizes).reached.size = target + 1 := by
  induction sizes using List.reverseRecOn with
  | nil => rfl
  | append_singleton sizes k ih =>
    rw [of_concat]
    unfold add
    split
    · exact ih
    · rw [Sums.size_withItem, ih]

/-- Once the target is reached, no sums are added. -/
theorem reached_concat_of_full {target : Nat} {sizes : List Nat}
    (full : (of target sizes).reached.contains target = true) (k : Nat) :
    (of target (sizes ++ [k])).reached = (of target sizes).reached := by
  rw [of_concat, add, if_pos full]

/-- Until then, a size is added to every sum. -/
theorem contains_concat {target : Nat} {sizes : List Nat}
    (underway : (of target sizes).reached.contains target = false) (k : Nat) {n : Nat}
    (within : n ≤ target) :
    (of target (sizes ++ [k])).reached.contains n = true ↔
      (of target sizes).reached.contains n = true ∨
        k ≤ n ∧ (of target sizes).reached.contains (n - k) = true := by
  have inside : n < (of target sizes).reached.size := by
    rw [size_reached]
    exact Nat.lt_succ_of_le within
  rw [of_concat, add, if_neg (by rw [underway]; exact Bool.false_ne_true), Sums.contains_withItem]
  simp [inside]

theorem clean_reached (target : Nat) (sizes : List Nat) : (of target sizes).reached.Clean := by
  induction sizes using List.reverseRecOn with
  | nil => exact Sums.clean_zero _
  | append_singleton sizes k ih =>
    rw [of_concat]
    unfold add
    split
    · exact ih
    · exact Sums.clean_withItem k ih

theorem contains_zero (target : Nat) (sizes : List Nat) :
    (of target sizes).reached.contains 0 = true := by
  induction sizes using List.reverseRecOn with
  | nil => simp [of, start, Sums.contains_zero]
  | append_singleton sizes k ih =>
    rw [of_concat]
    unfold add
    split
    · exact ih
    · rw [Sums.contains_withItem, ih, Bool.true_or]

/-- A size that reaches a new sum is not zero. -/
theorem pos_of_absent {target left k : Nat} {sizes : List Nat}
    (absent : (of target sizes).reached.contains left = false)
    (before : (of target sizes).reached.contains (left - k) = true) : 0 < k := by
  apply Nat.pos_of_ne_zero
  rintro rfl
  rw [Nat.sub_zero, absent] at before
  contradiction

/-- A sum is taken apart from the last size back: a size is left if the sizes before it reach the
sum. It is taken if they do not, and then they do not reach the target either. -/
inductive TakenApart (target : Nat) : List Nat → Nat → List Bool → Prop
  | nil : TakenApart target [] 0 []
  | leave {sizes : List Nat} {left : Nat} {mask : List Bool} (k : Nat)
    (before : (of target sizes).reached.contains left = true)
    (earlier : TakenApart target sizes left mask) :
    TakenApart target (sizes ++ [k]) left (mask ++ [false])
  | take {sizes : List Nat} {left : Nat} {mask : List Bool} (k : Nat) (room : k ≤ left)
    (within : left ≤ target) (absent : (of target sizes).reached.contains left = false)
    (underway : (of target sizes).reached.contains target = false)
    (before : (of target sizes).reached.contains (left - k) = true)
    (earlier : TakenApart target sizes (left - k) mask) :
    TakenApart target (sizes ++ [k]) left (mask ++ [true])

namespace TakenApart

variable {target left : Nat} {sizes : List Nat} {mask : List Bool}

theorem length_eq (h : TakenApart target sizes left mask) : mask.length = sizes.length := by
  induction h with
  | nil => rfl
  | leave _ _ _ ih => simp [ih]
  | take _ _ _ _ _ _ _ ih => simp [ih]

theorem exactSum_eq (h : TakenApart target sizes left mask) :
    exactSum (chosen sizes mask) = left := by
  induction h with
  | nil => rfl
  | leave k _ earlier ih =>
    rw [chosen_concat earlier.length_eq, exactSum_append, ih]
    rfl
  | @take sizes left mask k room _ _ _ _ earlier ih =>
    rw [chosen_concat earlier.length_eq, exactSum_append, ih]
    show left - k + (k + 0) = left
    omega

end TakenApart

/-- A sum that was reached is taken apart, and nothing is left of it. -/
theorem foldl_takeBack {target : Nat} {sizes : List Nat} {left : Nat}
    (h : (of target sizes).reached.contains left = true) (done : List Bool) :
    ∃ mask, (of target sizes).steps.foldl takeBack (left, done) = (0, mask ++ done) ∧
      TakenApart target sizes left mask := by
  induction sizes using List.reverseRecOn generalizing left done with
  | nil =>
    have none : left = 0 := by
      simp [of, start, Sums.contains_zero] at h
      exact h.2
    subst none
    exact ⟨[], rfl, .nil⟩
  | append_singleton sizes k ih =>
    have within := Sums.lt_size_of_contains h
    rw [size_reached] at within
    rw [of_concat] at h ⊢
    have steps : (add target (of target sizes) k).steps =
        (k, (of target sizes).reached) :: (of target sizes).steps := rfl
    rw [steps, List.foldl_cons]
    by_cases before : (of target sizes).reached.contains left = true
    · obtain ⟨mask, run, apart⟩ := ih before (false :: done)
      refine ⟨mask ++ [false], ?_, .leave k before apart⟩
      simp [takeBack, before, run]
    · rw [Bool.not_eq_true] at before
      unfold add at h
      split at h
      · rw [before] at h
        contradiction
      · rename_i underway
        simp only [Sums.contains_withItem, before, Bool.false_or, Bool.and_eq_true,
          decide_eq_true_eq] at h
        obtain ⟨⟨room, _⟩, rest⟩ := h
        obtain ⟨mask, run, apart⟩ := ih rest (true :: done)
        refine ⟨mask ++ [true], ?_, .take k room (Nat.le_of_lt_succ within) before
          (Bool.not_eq_true _ ▸ underway) rest apart⟩
        simp [takeBack, before, run]

/-- Until the target is reached, every subset sum up to it is reached. -/
theorem contains_of_subsetSum {target : Nat} {sizes : List Nat} {n : Nat}
    (sum : SubsetSum sizes n) (within : n ≤ target) :
    (of target sizes).reached.contains n = true ∨
      (of target sizes).reached.contains target = true := by
  induction sizes using List.reverseRecOn generalizing n with
  | nil =>
    rw [subsetSum_nil.mp sum]
    exact .inl (contains_zero target [])
  | append_singleton sizes k ih =>
    rw [of_concat]
    unfold add
    split
    · rename_i full
      exact .inr full
    · rename_i open_
      have reached {m : Nat} (sum : SubsetSum sizes m) (within : m ≤ target) :
          (of target sizes).reached.contains m = true := (ih sum within).resolve_right open_
      left
      rw [Sums.contains_withItem, Bool.or_eq_true, Bool.and_eq_true, decide_eq_true_eq,
        size_reached]
      obtain sum | ⟨room, sum⟩ := subsetSum_concat.mp sum
      · exact .inl (reached sum within)
      · exact .inr ⟨⟨room, by omega⟩, reached sum (by omega)⟩

end SumHistory

/-- The best subset is the greatest sum that was reached, taken apart. -/
theorem exists_takenApart (sizes : List Nat) (target : Nat) :
    ∃ mask, bestSubset sizes target = .ok mask ∧
      SumHistory.TakenApart target sizes (SumHistory.of target sizes).reached.largest mask := by
  have greatest := Sums.contains_largest (SumHistory.clean_reached target sizes)
    (SumHistory.contains_zero target sizes)
  obtain ⟨mask, run, apart⟩ := SumHistory.foldl_takeBack greatest []
  exact ⟨mask, by simp [bestSubset, run], apart⟩

/-- A best subset exists for all sizes and every target: its sum is within the target, and no
subset within the target has a greater sum. -/
theorem exists_bestSubset (sizes : List Nat) (target : Nat) :
    ∃ mask, bestSubset sizes target = .ok mask ∧
      exactSum (chosen sizes mask) ≤ target ∧
      ∀ n, SubsetSum sizes n → n ≤ target → n ≤ exactSum (chosen sizes mask) := by
  have inside := Sums.lt_size_of_contains (Sums.contains_largest
    (SumHistory.clean_reached target sizes) (SumHistory.contains_zero target sizes))
  rw [SumHistory.size_reached] at inside
  obtain ⟨mask, found, apart⟩ := exists_takenApart sizes target
  have sum := apart.exactSum_eq
  refine ⟨mask, found, by omega, fun n part within => ?_⟩
  rw [sum]
  obtain reached | reached := SumHistory.contains_of_subsetSum part within
  · exact Sums.le_largest reached
  · exact Nat.le_trans within (Sums.le_largest reached)

theorem foldl_takeIfFits (sizes : List Nat) (left : Nat) (done : List Bool) :
    ∃ mask rest, sizes.foldl takeIfFits (left, done) = (rest, mask.reverse ++ done) ∧
      exactSum (chosen sizes mask) ≤ left := by
  induction sizes generalizing left done with
  | nil => exact ⟨[], left, rfl, Nat.zero_le _⟩
  | cons k sizes ih =>
    rw [List.foldl_cons]
    by_cases fits : k ≤ left
    · obtain ⟨mask, rest, run, sum⟩ := ih (left - k) (true :: done)
      refine ⟨true :: mask, rest, ?_, ?_⟩
      · simp [takeIfFits, fits, run]
      · rw [chosen_take, exactSum_cons]
        omega
    · obtain ⟨mask, rest, run, sum⟩ := ih left (false :: done)
      refine ⟨false :: mask, rest, ?_, ?_⟩
      · simp [takeIfFits, fits, run]
      · rw [chosen_leave]
        exact sum

theorem chosen_firstFit_le (sizes : List Nat) (target : Nat) :
    exactSum (chosen sizes (firstFit sizes target)) ≤ target := by
  obtain ⟨mask, rest, run, sum⟩ := foldl_takeIfFits sizes target []
  have same : firstFit sizes target = mask := by simp [firstFit, run]
  rwa [same]

end PackedLayout
