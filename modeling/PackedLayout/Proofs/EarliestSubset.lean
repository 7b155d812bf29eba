import Mathlib.Algebra.BigOperators.Group.Finset.Basic
import Mathlib.Combinatorics.Colex
import Mathlib.Data.List.GetD
import Mathlib.Order.Bounds.Basic
import PackedLayout.Proofs.ChainTable

/-!
# The earliest subset

Many subsets may have the greatest sum within a target. The chosen one keeps to the front: its last
item comes as early as possible, then the one before it, and so on. That is the least of them in
colexicographic order.

- `Picks`, `sizeSum`: sets of positions of sizes that are not zero, and what they add up to;
- `subsetSum_sizeSum`: that is a subset sum, so it is reached while the target is not;
- `isLeast_concat_leave`, `isLeast_concat_take`: what one more size does to the least set;
- `TakenApart.isLeast`: so taking a sum apart finds the least set that has it;
- `bestSubset_earliest`: the best subset, which the table of links finds too, has the greatest sum
  and is the earliest that has it.
-/

namespace PackedLayout

variable {sizes : List Nat} {mask : List Bool} {s : Finset Nat} {target left k i : Nat}

/-- The sum of the sizes at some positions. -/
def sizeSum (sizes : List Nat) (s : Finset Nat) : Nat := ∑ i ∈ s, sizes.getD i 0

/-- Every position is that of a size, and the size is not zero. -/
def Picks (sizes : List Nat) (s : Finset Nat) : Prop := ∀ i ∈ s, 0 < sizes.getD i 0

theorem Picks.lt (picks : Picks sizes s) (member : i ∈ s) : i < sizes.length := by
  by_contra past
  have pos := picks i member
  rw [List.getD_eq_default _ _ (Nat.not_lt.mp past)] at pos
  exact Nat.lt_irrefl 0 pos

theorem getD_concat (sizes : List Nat) (k : Nat) (h : i ≠ sizes.length) :
    (sizes ++ [k]).getD i 0 = sizes.getD i 0 := by
  by_cases inside : i < sizes.length
  · exact List.getD_append _ _ _ _ inside
  · have past : (sizes ++ [k]).length ≤ i := by
      rw [List.length_append, List.length_singleton]
      omega
    rw [List.getD_eq_default _ _ past, List.getD_eq_default _ _ (by omega)]

theorem picks_concat (k : Nat) (absent : sizes.length ∉ s) :
    Picks (sizes ++ [k]) s ↔ Picks sizes s := by
  unfold Picks
  refine forall₂_congr fun i member => ?_
  rw [getD_concat sizes k (ne_of_mem_of_not_mem member absent)]

theorem sizeSum_concat (k : Nat) (absent : sizes.length ∉ s) :
    sizeSum (sizes ++ [k]) s = sizeSum sizes s := by
  apply Finset.sum_congr rfl
  intro i member
  exact getD_concat sizes k (ne_of_mem_of_not_mem member absent)

/-- The last size counts for itself. -/
theorem sizeSum_concat_of_mem (k : Nat) (member : sizes.length ∈ s) :
    sizeSum (sizes ++ [k]) s = k + sizeSum sizes (s.erase sizes.length) := by
  rw [← sizeSum_concat k (s.notMem_erase _)]
  unfold sizeSum
  rw [← Finset.add_sum_erase s _ member]
  simp

theorem subsetSum_sizeSum (inside : s ⊆ Finset.range sizes.length) :
    SubsetSum sizes (sizeSum sizes s) := by
  induction sizes using List.reverseRecOn generalizing s with
  | nil =>
    obtain rfl : s = ∅ := Finset.subset_empty.mp inside
    exact .zero []
  | append_singleton sizes k ih =>
    have front : s.erase sizes.length ⊆ Finset.range sizes.length := by
      intro i member
      obtain ⟨other, member⟩ := Finset.mem_erase.mp member
      have lt := Finset.mem_range.mp (inside member)
      rw [List.length_append, List.length_singleton] at lt
      exact Finset.mem_range.mpr (by omega)
    rw [subsetSum_concat]
    by_cases last : sizes.length ∈ s
    · right
      rw [sizeSum_concat_of_mem k last, Nat.add_sub_cancel_left]
      exact ⟨Nat.le_add_right _ _, ih front⟩
    · left
      rw [sizeSum_concat k last]
      rw [Finset.erase_eq_of_notMem last] at front
      exact ih front

/-! ## The least set of a sum -/

/-- The sets of positions of nonzero sizes that add up to `left`, in colexicographic order. -/
def picksOf (sizes : List Nat) (left : Nat) : Set (Colex (Finset Nat)) :=
  {s | Picks sizes (ofColex s) ∧ sizeSum sizes (ofColex s) = left}

/-- A set that can do without the last size is below all that have it. -/
theorem isLeast_concat_leave (k : Nat) (least : IsLeast (picksOf sizes left) (toColex s)) :
    IsLeast (picksOf (sizes ++ [k]) left) (toColex s) := by
  obtain ⟨⟨picks, sum⟩, least⟩ := least
  have absent : sizes.length ∉ s := fun member => Nat.lt_irrefl _ (picks.lt member)
  refine ⟨⟨(picks_concat k absent).mpr picks, (sizeSum_concat k absent).trans sum⟩, ?_⟩
  rintro t ⟨picks', sum'⟩
  by_cases last : sizes.length ∈ ofColex t
  · apply Finset.Colex.toColex_le_toColex.mpr
    intro i member _
    exact ⟨sizes.length, last, absent, Nat.le_of_lt (picks.lt member)⟩
  · exact least ⟨(picks_concat k last).mp picks', (sizeSum_concat k last).symm.trans sum'⟩

/-- If no set can do without the last size, the least one has the least rest. -/
theorem isLeast_concat_take (pos : 0 < k) (room : k ≤ left)
    (needed : ¬SubsetSum sizes left) (least : IsLeast (picksOf sizes (left - k)) (toColex s)) :
    IsLeast (picksOf (sizes ++ [k]) left) (toColex (insert sizes.length s)) := by
  obtain ⟨⟨picks, sum⟩, least⟩ := least
  have absent : sizes.length ∉ s := fun member => Nat.lt_irrefl _ (picks.lt member)
  have last : (sizes ++ [k]).getD sizes.length 0 = k := by simp
  refine ⟨⟨?_, ?_⟩, ?_⟩
  · intro i member
    obtain rfl | member := Finset.mem_insert.mp member
    · rwa [last]
    · exact (picks_concat k absent).mpr picks i member
  · show sizeSum (sizes ++ [k]) (insert sizes.length s) = left
    change sizeSum sizes s = left - k at sum
    rw [sizeSum_concat_of_mem k (Finset.mem_insert_self _ _), Finset.erase_insert absent, sum]
    omega
  · rintro t ⟨picks', sum'⟩
    have member : sizes.length ∈ ofColex t := by
      by_contra without
      rw [picks_concat k without] at picks'
      rw [sizeSum_concat k without] at sum'
      apply needed
      rw [← sum']
      exact subsetSum_sizeSum fun i member => Finset.mem_range.mpr (picks'.lt member)
    have rest : toColex s ≤ toColex ((ofColex t).erase sizes.length) := by
      have absent' := (ofColex t).notMem_erase sizes.length
      apply least
      refine ⟨(picks_concat k absent').mp fun i member => ?_, ?_⟩
      · exact picks' i (Finset.mem_of_mem_erase member)
      · rw [sizeSum_concat_of_mem k member] at sum'
        show sizeSum sizes ((ofColex t).erase sizes.length) = left - k
        omega
    -- the last position is in both sets, so the others decide
    change toColex _ ≤ toColex (ofColex t)
    rw [← Finset.Colex.toColex_sdiff_le_toColex_sdiff
      (Finset.singleton_subset_iff.mpr (Finset.mem_insert_self _ _))
      (Finset.singleton_subset_iff.mpr member), Finset.sdiff_singleton_eq_erase,
      Finset.sdiff_singleton_eq_erase, Finset.erase_insert absent]
    exact rest

namespace SumHistory

/-- Taking a sum apart finds the least set of positions that has it. -/
theorem TakenApart.isLeast (h : TakenApart target sizes left mask) :
    IsLeast (picksOf sizes left) (toColex (positions mask).toFinset) := by
  induction h with
  | nil =>
    refine ⟨⟨by simp [Picks, positions], rfl⟩, fun t _ => ?_⟩
    exact Finset.Colex.toColex_le_toColex_of_subset (Finset.empty_subset _)
  | @leave sizes left mask k _ earlier ih =>
    rw [positions_concat, if_neg Bool.false_ne_true, List.append_nil]
    exact isLeast_concat_leave k ih
  | @take sizes left mask k room within absent underway before earlier ih =>
    have needed : ¬SubsetSum sizes left := by
      intro sum
      obtain reached | reached := contains_of_subsetSum sum within
      · rw [absent] at reached
        contradiction
      · rw [underway] at reached
        contradiction
    have front : (positions (mask ++ [true])).toFinset =
        insert sizes.length (positions mask).toFinset := by
      rw [positions_concat, if_pos rfl, earlier.length_eq, List.toFinset_append, Finset.union_comm]
      rfl
    rw [front]
    exact isLeast_concat_take (pos_of_absent absent before) room needed ih

end SumHistory

/-- A best subset is found for all sizes and every target, and the table of links finds the same as
long as it can number the sizes. The positions it takes ascend, and no size there is zero. No subset
has a greater sum within the target. Of all sets of positions of nonzero sizes with the same sum, it
has the earliest last position, then the earliest one before it, and so on. -/
theorem bestSubset_earliest (sizes : List Nat) (target : Nat) :
    ∃ mask, bestSubset sizes target = .ok mask ∧
      (sizes.length ≤ ChainTable.origin.toNat →
        ChainTable.bestSubset sizes target = .ok (positions mask)) ∧
      (positions mask).Pairwise (· < ·) ∧
      (∀ i ∈ positions mask, ∃ size, sizes[i]? = some size ∧ 0 < size) ∧
      exactSum (chosen sizes mask) = sizeSum sizes (positions mask).toFinset ∧
      IsGreatest {n | n ≤ target ∧ ∃ s ⊆ Finset.range sizes.length, sizeSum sizes s = n}
        (sizeSum sizes (positions mask).toFinset) ∧
      IsLeast (picksOf sizes (sizeSum sizes (positions mask).toFinset))
        (toColex (positions mask).toFinset) := by
  obtain ⟨mask, found, apart⟩ := exists_takenApart sizes target
  obtain ⟨⟨picks, sum⟩, least⟩ := apart.isLeast
  have reached := Sums.contains_largest (SumHistory.clean_reached target sizes)
    (SumHistory.contains_zero target sizes)
  have within := Sums.lt_size_of_contains reached
  rw [SumHistory.size_reached] at within
  change sizeSum sizes (positions mask).toFinset = _ at sum
  refine ⟨mask, found, ?_, ?_, ?_, apart.exactSum_eq.trans sum.symm, ⟨⟨?_, _, ?_, rfl⟩, ?_⟩, ?_⟩
  · intro few
    rw [ChainTable.bestSubset_eq target few, found]
    rfl
  · exact List.pairwise_lt_range.filter _
  · intro i member
    have pos := picks i (List.mem_toFinset.mpr member)
    have inside := picks.lt (List.mem_toFinset.mpr member)
    rw [List.getD_eq_getElem _ _ inside] at pos
    exact ⟨sizes[i], List.getElem?_eq_getElem inside, pos⟩
  · rw [sum]
    exact Nat.le_of_lt_succ within
  · intro i member
    exact Finset.mem_range.mpr (picks.lt member)
  · rintro _ ⟨within, s, inside, rfl⟩
    rw [sum]
    obtain reached | full := SumHistory.contains_of_subsetSum (subsetSum_sizeSum inside) within
    · exact Sums.le_largest reached
    · exact Nat.le_trans within (Sums.le_largest full)
  · rw [sum]
    exact apart.isLeast

/-- The sum 5 is also that of the sizes 1 and 4, of 3 and the second 2, and of both 2s and 1. -/
example : bestSubset [2, 3, 1, 2, 0, 4] 5 = .ok [true, true, false, false, false, false] := by
  rfl

end PackedLayout
