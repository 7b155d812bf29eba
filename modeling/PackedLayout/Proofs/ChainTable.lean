import PackedLayout.Proofs.SubsetSums
import PackedLayout.SubsetSum.ChainTable

/-!
# The table of links

The table links exactly the sums that are reached, each to the first item that reaches it, so
following the links picks the same items as taking the sum apart from the last item back.

- `link_linkDown`: going down, every link is set by what the links were at the start;
- `ChainTable.Follows`: what the table holds after some items. Adding an item keeps it, and so does
  every item that is left out once the target is reached;
- `highest_eq`: the greatest sum in the table is the greatest that is reached;
- `walk_eq`: the links from a sum lead over the items that it is taken apart into;
- `bestSubset_eq`: so the table finds the best subset, unless there are too many items to number.
-/

namespace PackedLayout

namespace ChainTable

open SumHistory

variable {target size bound sum i : Nat} {item : UInt32} {sizes done rest : List Nat}
  {links : Vector UInt32 (target + 1)} {chain : ChainTable target}

/-- The link of a sum, and none past the target. -/
def linkAt (links : Vector UInt32 (target + 1)) (sum : Nat) : UInt32 := links[sum]?.getD unreached

def link (chain : ChainTable target) (sum : Nat) : UInt32 := linkAt chain.links sum

theorem getElem_eq_linkAt (inside : sum < target + 1) : links[sum] = linkAt links sum := by
  rw [linkAt, Vector.getElem?_eq_getElem inside, Option.getD_some]

theorem get_last_eq_linkAt (links : Vector UInt32 (target + 1)) :
    links.get (Fin.last target) = linkAt links target :=
  getElem_eq_linkAt (Nat.lt_succ_self target)

theorem linkAt_set (inside : sum < target + 1) (other : Nat) :
    linkAt (links.set sum item inside) other =
      if sum = other then item else linkAt links other := by
  unfold linkAt
  rw [Vector.getElem?_set]
  split <;> rfl

/-- Going down, a sum is linked if the links at the start ask for it: what is read for it lies
below, where nothing has changed yet. -/
theorem linkAt_linkDown (pos : 0 < size) (within : bound ≤ target + 1)
    (links : Vector UInt32 (target + 1)) (s : Nat) :
    linkAt (linkDown size item bound within links) s =
      if (size ≤ s ∧ s < bound) ∧ linkAt links s = unreached ∧ linkAt links (s - size) ≠ unreached
      then item else linkAt links s := by
  induction bound generalizing links with
  | zero => simp [linkDown]
  | succ sum ih =>
    unfold linkDown
    by_cases room : size ≤ sum
    · rw [if_pos room, getElem_eq_linkAt, getElem_eq_linkAt, ih]
      by_cases first : linkAt links sum = unreached ∧ linkAt links (sum - size) ≠ unreached
      · rw [if_pos first, linkAt_set, linkAt_set]
        by_cases here : sum = s
        · subst here
          rw [if_neg (by omega), if_pos rfl, if_pos ⟨⟨room, Nat.lt_succ_self sum⟩, first⟩]
        · rw [if_neg here]
          by_cases inside : size ≤ s ∧ s < sum
          · have below : sum ≠ s - size := by omega
            have outside : s < sum + 1 := by omega
            simp only [if_neg below, inside, outside, true_and]
          · rw [if_neg fun h => inside h.1, if_neg fun h => inside (by omega)]
      · rw [if_neg first]
        by_cases here : sum = s
        · subst here
          rw [if_neg (by omega), if_neg fun h => first h.2]
        · have same : (size ≤ s ∧ s < sum) ↔ (size ≤ s ∧ s < sum + 1) := by omega
          simp only [same]
    · rw [if_neg room, if_neg (by omega)]

/-! ## Adding items -/

/-- What the table holds after some items: it links the sums that are reached, and each sum to the
item that reached it first. -/
structure Follows (sizes : List Nat) (chain : ChainTable target) : Prop where
  reached : ∀ s ≤ target, chain.link s ≠ unreached ↔ (of target sizes).reached.contains s = true
  first : ∀ earlier k, earlier ++ [k] <+: sizes →
    (of target earlier).reached.contains target = false →
      ∀ s ≤ target, k ≤ s → (of target earlier).reached.contains s = false →
        (of target earlier).reached.contains (s - k) = true → chain.link s = .ofNat earlier.length

/-- A number of an item is told from the other two links. -/
theorem toNat_ofNat (few : i < origin.toNat) :
    (UInt32.ofNat i).toNat = i ∧ UInt32.ofNat i ≠ unreached ∧ UInt32.ofNat i ≠ origin := by
  have value : (UInt32.ofNat i).toNat = i :=
    UInt32.toNat_ofNat_of_lt' (Nat.lt_trans few origin.toNat_lt_size)
  have between : origin.toNat < unreached.toNat := by decide
  refine ⟨value, ?_, ?_⟩
  · intro same
    rw [same] at value
    omega
  · intro same
    rw [same] at value
    omega

theorem follows_start (target : Nat) : Follows [] (start target) where
  reached := by
    intro s within
    have zero : (of target []).reached.contains s = true ↔ s = 0 := by
      rw [of, List.foldl_nil, SumHistory.start, Sums.contains_zero, decide_eq_true_eq]
      omega
    have blank : linkAt (Vector.replicate (target + 1) unreached) s = unreached := by
      unfold linkAt
      rw [Vector.getElem?_replicate]
      split <;> rfl
    rw [zero, link, start, linkAt_set, blank]
    split
    · rename_i none
      exact ⟨fun _ => none.symm, fun _ => by decide⟩
    · rename_i some
      exact ⟨fun none => absurd rfl none, fun none => absurd none.symm some⟩
  first := by
    intro earlier k part
    simp at part

namespace Follows

/-- One more item links the sums that are reached only with it. -/
theorem next {next : ChainTable target} {k : Nat} (h : Follows sizes chain)
    (few : sizes.length < origin.toNat)
    (underway : (of target sizes).reached.contains target = false)
    (links : ∀ s ≤ target, next.link s =
      if k ≤ s ∧ chain.link s = unreached ∧ chain.link (s - k) ≠ unreached then
        .ofNat sizes.length else chain.link s) :
    Follows (sizes ++ [k]) next where
  reached := by
    intro s within
    rw [links s within, contains_concat underway k within, ← h.reached s within,
      ← h.reached (s - k) (Nat.le_trans (Nat.sub_le s k) within)]
    split
    · rename_i linked
      exact iff_of_true (toNat_ofNat few).2.1 (.inr ⟨linked.1, linked.2.2⟩)
    · rename_i kept
      constructor
      · exact .inl
      · rintro (before | ⟨room, without⟩)
        · exact before
        · exact fun absent => kept ⟨room, absent, without⟩
  first := by
    intro earlier k' part underway' s within room absent without
    obtain same | before := List.prefix_concat_iff.mp part
    · obtain ⟨rfl, last⟩ := List.append_inj' same rfl
      obtain rfl := List.singleton_inj.mp last
      have unlinked : ¬chain.link s ≠ unreached := by
        rw [h.reached s within, absent]
        exact Bool.false_ne_true
      have linked := (h.reached (s - k') (Nat.le_trans (Nat.sub_le s k') within)).mpr without
      rw [links s within, if_pos ⟨room, not_not.mp unlinked, linked⟩]
    · have old := h.first earlier k' before underway' s within room absent without
      have shorter := before.length_le
      rw [List.length_append, List.length_singleton] at shorter
      have linked := (toNat_ofNat (i := earlier.length) (by omega)).2.1
      rw [links s within, if_neg fun new => linked (old.symm.trans new.2.1), old]

/-- An item of size zero, or above the target, links nothing. -/
theorem skip {k : Nat} (h : Follows sizes chain) (few : sizes.length < origin.toNat)
    (underway : (of target sizes).reached.contains target = false) (none : k = 0 ∨ target < k) :
    Follows (sizes ++ [k]) chain := by
  refine h.next few underway fun s within => (if_neg ?_).symm
  rintro ⟨room, absent, without⟩
  obtain rfl | large := none
  · exact without absent
  · omega

theorem add {k : Nat} (h : Follows sizes chain) (few : sizes.length < origin.toNat)
    (underway : (of target sizes).reached.contains target = false) (pos : 0 < k) :
    Follows (sizes ++ [k])
      ⟨linkDown k (.ofNat sizes.length) (target + 1) (Nat.le_refl _) chain.links⟩ := by
  refine h.next few underway fun s within => ?_
  have inside : s < target + 1 := Nat.lt_succ_of_le within
  show linkAt (linkDown k _ _ _ chain.links) s = _
  rw [linkAt_linkDown pos]
  simp only [inside, and_true]
  rfl

/-- Once the target is reached, the table stays as it is. -/
theorem stay (h : Follows sizes chain) (full : (of target sizes).reached.contains target = true)
    (k : Nat) : Follows (sizes ++ [k]) chain where
  reached := by
    rw [reached_concat_of_full full]
    exact h.reached
  first := by
    intro earlier k' part underway
    obtain same | before := List.prefix_concat_iff.mp part
    · obtain ⟨rfl, _⟩ := List.append_inj' same rfl
      rw [full] at underway
      contradiction
    · exact h.first earlier k' before underway

theorem stays (h : Follows sizes chain) (full : (of target sizes).reached.contains target = true)
    (rest : List Nat) : Follows (sizes ++ rest) chain := by
  induction rest generalizing sizes with
  | nil => rwa [List.append_nil]
  | cons k rest ih =>
    rw [List.append_cons]
    exact ih (h.stay full k) (by rwa [reached_concat_of_full full])

end Follows

/-- The table after all items, be it that the last of them are left out. The target is only reached
from the start where it is zero. -/
theorem follows_addAll (h : Follows done chain) (few : (done ++ rest).length ≤ origin.toNat)
    (underway : (of target done).reached.contains target = true → target = 0) :
    Follows (done ++ rest) (addAll chain done.length rest) := by
  induction rest generalizing done chain with
  | nil => rwa [List.append_nil]
  | cons k rest ih =>
    have here : done.length < origin.toNat := by
      rw [List.length_append, List.length_cons] at few
      omega
    have count : (done ++ [k]).length = done.length + 1 := List.length_append
    rw [List.append_cons] at few ⊢
    unfold addAll
    by_cases none : k = 0 ∨ target < k
    · rw [if_pos none, ← count]
      have next : Follows (done ++ [k]) chain := by
        by_cases full : (of target done).reached.contains target = true
        · exact h.stay full k
        · exact h.skip here (Bool.eq_false_iff.mpr full) none
      refine ih next few fun full => underway ?_
      exact (h.reached target (Nat.le_refl _)).mp ((next.reached target (Nat.le_refl _)).mpr full)
    · have open_ : (of target done).reached.contains target = false :=
        Bool.eq_false_iff.mpr fun full => by
          have := underway full
          omega
      have next := h.add here open_ (k := k) (by omega)
      rw [if_neg none]
      dsimp only
      split
      · rename_i linked
        rw [get_last_eq_linkAt] at linked
        exact next.stays ((next.reached target (Nat.le_refl _)).mp linked) rest
      · rename_i unlinked
        rw [get_last_eq_linkAt] at unlinked
        rw [← count]
        refine ih next few fun full => ?_
        exact absurd ((next.reached target (Nat.le_refl _)).mpr full) unlinked

theorem follows_all (target : Nat) (few : sizes.length ≤ origin.toNat) :
    Follows sizes (addAll (start target) 0 sizes) := by
  refine follows_addAll (follows_start target) few fun full => ?_
  rw [of, List.foldl_nil, SumHistory.start, Sums.contains_zero, decide_eq_true_eq] at full
  exact full.2

/-! ## Walking back -/

/-- The sum found is linked, unless it is zero, and every other one that is linked is below it. -/
theorem highest_spec (chain : ChainTable target) (bound : Nat) (inside : bound < target + 1) :
    (chain.link (highest chain bound inside) ≠ unreached ∨ (highest chain bound inside).val = 0) ∧
      ∀ s ≤ bound, chain.link s ≠ unreached → s ≤ highest chain bound inside := by
  induction bound with
  | zero => exact ⟨.inr rfl, fun s within _ => within⟩
  | succ sum ih =>
    unfold highest
    rw [getElem_eq_linkAt]
    split
    · rename_i linked
      exact ⟨.inl linked, fun s within _ => within⟩
    · rename_i unlinked
      obtain ⟨found, most⟩ := ih (Nat.lt_of_succ_lt inside)
      refine ⟨found, fun s within linked => ?_⟩
      obtain below | rfl := Nat.lt_or_eq_of_le within
      · exact most s (Nat.le_of_lt_succ below) linked
      · exact absurd linked unlinked

theorem highest_eq (h : Follows sizes chain) :
    (highest chain target (Nat.lt_succ_self target)).val = (of target sizes).reached.largest := by
  obtain ⟨found, most⟩ := highest_spec chain target (Nat.lt_succ_self target)
  have greatest := Sums.contains_largest (clean_reached target sizes) (contains_zero target sizes)
  have within := Sums.lt_size_of_contains greatest
  rw [size_reached] at within
  apply Nat.le_antisymm
  · obtain linked | none := found
    · exact Sums.le_largest ((h.reached _ (Nat.le_of_lt_succ (Fin.isLt _))).mp linked)
    · rw [none]
      exact Nat.zero_le _
  · have le := Nat.le_of_lt_succ within
    exact most _ le ((h.reached _ le).mpr greatest)

/-- A link to an item of a size above zero goes on from the sum without it. -/
theorem walk_of_link (inside : sum < target + 1) (linked : chain.link sum = .ofNat i)
    (few : i < origin.toNat) (of_size : sizes.getD i 0 = size) (pos : 0 < size) (room : size ≤ sum)
    (picked : List Nat) :
    walk sizes chain sum inside picked =
      walk sizes chain (sum - size) (Nat.lt_of_le_of_lt (Nat.sub_le sum size) inside)
        (i :: picked) := by
  obtain ⟨number, reached, inner⟩ := toNat_ofNat few
  have item : chain.links[sum] = .ofNat i := (getElem_eq_linkAt inside).trans linked
  have less : sum - size < sum := Nat.sub_lt (Nat.lt_of_lt_of_le pos room) pos
  rw [walk, if_neg (Nat.ne_of_gt (Nat.lt_of_lt_of_le pos room))]
  simp only [item, number, of_size, reached, inner, or_self, if_false, dif_pos less]

/-- The links from a sum lead over the items that the sum is taken apart into. -/
theorem walk_eq (h : Follows sizes chain) (few : sizes.length ≤ origin.toNat) {earlier : List Nat}
    {left : Nat} {mask : List Bool} (apart : TakenApart target earlier left mask)
    (part : earlier <+: sizes) (inside : left < target + 1) (picked : List Nat) :
    walk sizes chain left inside picked = .ok (positions mask ++ picked) := by
  induction apart generalizing picked with
  | nil =>
    unfold walk
    rfl
  | @leave earlier left mask k _ apart ih =>
    rw [positions_concat, if_neg Bool.false_ne_true, List.append_nil]
    exact ih ((List.prefix_append earlier [k]).trans part) inside picked
  | @take earlier left mask k room within absent underway before apart ih =>
    have linked := h.first earlier k part underway left within room absent before
    have shorter := part.length_le
    rw [List.length_append, List.length_singleton] at shorter
    have size : sizes.getD earlier.length 0 = k := by
      obtain ⟨rest, rfl⟩ := part
      simp
    rw [walk_of_link inside linked (by omega) size (pos_of_absent absent before) room,
      ih ((List.prefix_append earlier [k]).trans part), positions_concat, if_pos rfl,
      apart.length_eq, List.append_assoc]
    rfl

/-- The table finds the best subset, as long as the items can be told from the other links. -/
theorem bestSubset_eq (target : Nat) (few : sizes.length ≤ origin.toNat) :
    bestSubset sizes target = (PackedLayout.bestSubset sizes target).map positions := by
  obtain ⟨mask, found, apart⟩ := exists_takenApart sizes target
  have follows := follows_all target few
  rw [← highest_eq follows] at apart
  rw [found]
  refine (walk_eq follows few apart List.prefix_rfl (Fin.isLt _) []).trans ?_
  rw [List.append_nil]
  rfl

end ChainTable

end PackedLayout
