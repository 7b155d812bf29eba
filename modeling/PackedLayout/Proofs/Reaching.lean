import Mathlib.Order.Bounds.Basic
import PackedLayout.Proofs.Sufficiency

/-!
# How far an arm can fill a zone

An arm reaches a number of bytes in a zone if all of its pending fields of the class and of larger
ones, and some of the smaller ones, add up to it. Both the choice of fields for a zone and the
search for its boundary are exact for what arms reach:

- `Arm.Reaches`: all sums of an arm, by its fields and not by any table;
- `Arm.select_greatest`: an arm places the most it reaches within the room that it has;
- `exactBoundary_greatest`: the search finds the greatest boundary that all large arms reach, or
  there is none.
-/

namespace PackedLayout

variable {w : Width} {limit capacity start lo : Nat} {zone : Alignment}

theorem subsetSum_sizes {items : List Item} {n : Nat} :
    SubsetSum (items.map (·.size)) n ↔
      ∃ part : List Item, part.Sublist items ∧ exactSize part = n := by
  constructor
  · rintro ⟨sizes, sub, rfl⟩
    obtain ⟨part, own, rfl⟩ := List.sublist_map_iff.mp sub
    exact ⟨part, own, rfl⟩
  · rintro ⟨part, own, rfl⟩
    exact ⟨part.map (·.size), own.map _, rfl⟩

instance (w : Width) (n : Nat) : Decidable (w.Fits n) :=
  inferInstanceAs (Decidable (w.checked n = some n))

instance (arms : List Arm) : Decidable (LargestArmFirst arms) :=
  inferInstanceAs (Decidable (arms.Pairwise fun a b => b.required ≤ a.required))

namespace Arm

variable {arm : Arm}

instance (zone : Alignment) (arm : Arm) : Decidable (arm.Below zone) :=
  inferInstanceAs (Decidable (∀ item ∈ arm.pending, item.align ≤ zone))

/-- The pending fields of the class and of larger ones, with some of the smaller ones, take `n`
bytes. -/
def Reaches (zone : Alignment) (n : Nat) (arm : Arm) : Prop :=
  ∃ part : List Item, part.Sublist (arm.pending.filter fun item => item.align < zone) ∧
    arm.bytesFrom zone + exactSize part = n

/-- What an arm can place in a zone, by the sizes of its smaller fields. -/
theorem reaches_iff {n : Nat} : arm.Reaches zone n ↔ arm.bytesFrom zone ≤ n ∧
    SubsetSum ((arm.pending.filter fun item => item.align < zone).map (·.size))
      (n - arm.bytesFrom zone) := by
  rw [subsetSum_sizes]
  constructor
  · rintro ⟨part, own, rfl⟩
    simp only [Nat.le_add_right, Nat.add_sub_cancel_left, true_and]
    exact ⟨part, own, rfl⟩
  · rintro ⟨le, part, own, same⟩
    refine ⟨part, own, ?_⟩
    omega

theorem Reaches.le_pending {n : Nat} (reaches : arm.Reaches zone n) :
    n ≤ exactSize arm.pending := by
  obtain ⟨part, own, rfl⟩ := reaches
  have smaller : exactSize part ≤ exactSize (arm.pending.filter fun item => item.align < zone) :=
    exactSum_le_of_sublist (own.map _)
  have split :=
    exactSize_perm (arm.pending.filter_append_perm fun item => decide (zone ≤ item.align))
  have others : (arm.pending.filter fun item => !decide (zone ≤ item.align)) =
      arm.pending.filter fun item => item.align < zone := by
    apply List.filter_congr
    intro item _
    rw [Bool.eq_iff_iff]
    simp [Alignment.lt_iff, Alignment.le_iff]
  rw [exactSize_append, others] at split
  unfold bytesFrom
  omega

/-- The sums that the search works with are all that an arm reaches. -/
theorem contains_zoneSums_iff (fits : w.Fits (exactSize arm.pending)) {n : Nat} :
    (arm.zoneSums w zone).contains n = true ↔ arm.Reaches zone n := by
  have all : arm.pendingBytes w (fun _ => true) = exactSize arm.pending := by
    rw [pendingBytes_eq fits, List.filter_true]
  unfold zoneSums
  rw [Sums.contains_reachable, all, pendingBytes_eq fits, ← bytesFrom.eq_1, ← reaches_iff]
  constructor
  · exact And.right
  · intro reaches
    exact ⟨reaches.le_pending, reaches⟩

/-! ## The choice for a zone -/

/-- With no field of a larger class left, the fields of the class come first. -/
theorem reaches_append {part : List Item} (below : arm.Below zone)
    (own : part.Subperm (arm.optional zone)) :
    arm.Reaches zone (exactSize (arm.mandatory zone ++ part)) := by
  obtain ⟨part', perm, own⟩ := own.trans (optional_perm below).subperm
  refine ⟨part', own, ?_⟩
  rw [bytesFrom_eq_mandatory below, exactSize_append, exactSize_perm perm]

/-- An arm with no field of a larger class left places all of its fields of the class, and keeps
only smaller ones. What it places takes no more than the capacity, or than the fields of the class
if these need more. It is the most that the arm reaches within that room, as long as the room to
search is within the limit. -/
theorem select_greatest (below : arm.Below zone) (fits : w.Fits (exactSize arm.pending))
    (limit capacity : Nat) :
    ∃ picked rest, arm.select w limit zone capacity = .ok (picked.map (·.1)) ∧
      (picked.map (·.1)).Nodup ∧ (picked ++ rest).Perm arm.unplaced ∧
      arm.unplaced.filter (·.2.align == zone) <+: picked ∧
      (∀ pick ∈ rest, pick.2.align < zone) ∧
      exactSize (picked.map (·.2)) ≤ max capacity (exactSize (arm.mandatory zone)) ∧
      (min (max capacity (exactSize (arm.mandatory zone))) (exactSize arm.pending) -
          exactSize (arm.mandatory zone) ≤ limit →
        IsGreatest {n | arm.Reaches zone n ∧ n ≤ max capacity (exactSize (arm.mandatory zone))}
          (exactSize (picked.map (·.2)))) := by
  obtain ⟨mask, best, selected⟩ := exists_select limit capacity below fits
  obtain ⟨rest, optional⟩ := (chosen_sublist (arm.optionalAt zone) mask).exists_perm_append
  have size := exactSize_append (arm.mandatory zone) (chosen (arm.optional zone) mask)
  have split := exactSize_pending zone arm
  have within := best.within
  have nodup := (arm.picks_of_zone zone mask).nodup
  refine ⟨_, rest, selected, nodup, ?_, List.prefix_append _ _, ?_, ?_⟩
  · rw [picks, List.append_assoc]
    exact (List.Perm.append_left _ optional.symm).trans
      (arm.mandatoryAt_append_optionalAt_perm zone)
  · intro pick left
    have listed := optional.mem_iff.mpr (List.mem_append_right _ left)
    obtain ⟨pending, other⟩ := mem_optionalAt.mp listed
    apply Nat.lt_of_le_of_ne (below pick.2 (mem_pending pending))
    intro same
    exact other (Alignment.bytes_injective same)
  rw [map_picks, picked]
  constructor
  · omega
  · intro small
    constructor
    · constructor
      · exact reaches_append below (chosen_sublist _ mask).subperm
      · omega
    · rintro n ⟨⟨part, own, rfl⟩, room⟩
      rw [bytesFrom_eq_mandatory below] at room ⊢
      have sum : SubsetSum ((arm.optional zone).map (·.size)) (exactSize part) :=
        subsetSum_perm ((optional_perm below).symm.map _) (subsetSum_sizes.mpr ⟨part, own, rfl⟩)
      have most := best.best (by omega) (exactSize part) sum (by omega)
      omega

/-- An arm with fields of 4, 3 and 2 bytes. -/
def mixed : Arm := ⟨0, .empty, 9, [some ⟨4, .four, []⟩, some ⟨3, .one, []⟩, some ⟨2, .two, []⟩]⟩

/-- In 8 bytes it places the first two. -/
theorem select_greatest_mixed :
    ∃ picked : List (Nat × Item), picked.map (·.1) = [0, 1] ∧
      IsGreatest {n | mixed.Reaches .four n ∧ n ≤ 8} (exactSize (picked.map (·.2))) ∧
      exactSize (picked.map (·.2)) = 7 := by
  have below : mixed.Below .four := by decide
  obtain ⟨picked, rest, selected, _, split, _, _, _, greatest⟩ :=
    select_greatest below (w := .bits64) (by decide) 64 8
  have known : mixed.select .bits64 64 .four 8 = .ok [0, 1] := by decide
  obtain ⟨first, others, rfl, here, later⟩ :=
    List.map_eq_cons_iff.mp (Except.ok.inj (known.symm.trans selected)).symm
  obtain ⟨second, none, rfl, there, nil⟩ := List.map_eq_cons_iff.mp later
  obtain rfl := List.map_eq_nil_iff.mp nil
  have sizes : ∀ pick ∈ mixed.unplaced,
      (pick.1 = 0 → pick.2.size = 4) ∧ (pick.1 = 1 → pick.2.size = 3) := by decide
  have four := (sizes first (split.mem_iff.mp (by simp))).1 here
  have three := (sizes second (split.mem_iff.mp (by simp))).2 there
  refine ⟨[first, second], by simp [here, there], greatest (by decide), ?_⟩
  show first.2.size + (second.2.size + 0) = 7
  rw [four, three]

end Arm

/-! ## The boundary of a zone -/

/-- A partial function that gives a member, and where there is a member one that is at least as
great, gives the greatest member. -/
theorem isGreatest_of_search {found : Option Nat} {S : Set Nat}
    (sound : ∀ t, found = some t → t ∈ S)
    (complete : ∀ t ∈ S, ∃ t', found = some t' ∧ t ≤ t') :
    (∀ t, found = some t ↔ IsGreatest S t) ∧ (found = none ↔ ∀ t, t ∉ S) := by
  constructor
  · intro t
    constructor
    · intro here
      refine ⟨sound t here, ?_⟩
      intro other member
      obtain ⟨t', there, le⟩ := complete other member
      cases here.symm.trans there
      exact le
    · rintro ⟨member, greatest⟩
      obtain ⟨t', there, le⟩ := complete t member
      cases Nat.le_antisymm le (greatest (sound t' there))
      exact there
  · constructor
    · intro none t member
      obtain ⟨t', there, _⟩ := complete t member
      rw [none] at there
      contradiction
    · intro empty
      cases known : found with
      | none => rfl
      | some t => exact absurd (sound t known) (empty t)

/-- The boundaries from `lo` to the size of the largest arm that are multiples of the class and that
every arm of at least that size reaches from the start of the zone. -/
def exactBoundaries (zone : Alignment) (start lo : Nat) (largest : Arm) (rest : List Arm) :
    Set Nat :=
  {t | zone.bytes ∣ t ∧ lo ≤ t ∧ t ≤ largest.required ∧
    ∀ arm ∈ largest :: rest, t ≤ arm.required → arm.Reaches zone (t - start)}

/-- The search finds the greatest of the exact boundaries, or there is none. -/
theorem exactBoundary_greatest {largest : Arm} {rest : List Arm} (aligned : zone.bytes ∣ start)
    (start_le : start ≤ lo) (ordered : LargestArmFirst (largest :: rest))
    (fits : ∀ arm ∈ largest :: rest, w.Fits (exactSize arm.pending)) :
    (∀ t, exactBoundary? w zone start lo (largest :: rest) = some t ↔
      IsGreatest (exactBoundaries zone start lo largest rest) t) ∧
    (exactBoundary? w zone start lo (largest :: rest) = none ↔
      ∀ t, t ∉ exactBoundaries zone start lo largest rest) := by
  apply isGreatest_of_search
  · intro t found
    obtain ⟨above, whole, ⟨arm, listed, reach⟩, each⟩ :=
      exactBoundary?_sound aligned start_le ordered found
    have within : arm.required ≤ largest.required := by
      obtain rfl | later := List.mem_cons.mp listed
      · exact Nat.le_refl _
      · exact (List.pairwise_cons.mp ordered).1 arm later
    refine ⟨whole, above, by omega, ?_⟩
    intro arm listed reach
    exact (Arm.contains_zoneSums_iff (fits arm listed)).mp (each arm listed reach)
  · rintro t ⟨whole, above, within, each⟩
    apply exists_exactBoundary? aligned start_le above whole within
    intro arm listed reach
    exact (Arm.contains_zoneSums_iff (fits arm listed)).mpr (each arm listed reach)

/-- Behind 8 bytes, an arm with fields of 4, 3 and 2 bytes does not reach 16, so another one with
fields of 4 and 4 ends with its first field. -/
theorem exactBoundary_greatest_mixed :
    IsGreatest (exactBoundaries .four 8 12
      ⟨0, .empty, 17, [some ⟨4, .four, []⟩, some ⟨3, .one, []⟩, some ⟨2, .two, []⟩]⟩
      [⟨1, .empty, 16, [some ⟨4, .four, []⟩, some ⟨4, .one, []⟩]⟩]) 12 := by
  have search := @exactBoundary_greatest .bits64 8 12 .four
    ⟨0, .empty, 17, [some ⟨4, .four, []⟩, some ⟨3, .one, []⟩, some ⟨2, .two, []⟩]⟩
    [⟨1, .empty, 16, [some ⟨4, .four, []⟩, some ⟨4, .one, []⟩]⟩] (by decide) (by decide) (by decide)
    (by decide)
  exact (search.1 12).mp (by decide)

end PackedLayout
