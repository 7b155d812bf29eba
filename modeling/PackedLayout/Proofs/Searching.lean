import PackedLayout.Proofs.Placement

/-!
# What the search for a boundary finds

The arms of a variant are collected from their fields, and count them exactly. A boundary that the
search finds for a zone is one that every arm large enough can end the zone on:

- `collected_of?`: the counts of an arm are those of its fields, and its size is their size;
- `contains_zoneSums`: the sums of an arm are its mandatory bytes and a subset of the others;
- `exactBoundary?_sound`: a boundary found is a multiple of the class in range, and the distance
  to it is a sum of every arm that reaches it.
-/

namespace PackedLayout

variable {w : Width} {zone : Alignment}

/-! ## Collected arms -/

namespace Arm

/-- The arm has all of its fields pending, and its counts and its size are theirs. -/
structure Collected (w : Width) (arm : Arm) : Prop where
  whole : ∀ item ∈ arm.pending, item.Whole
  required_eq : arm.required = exactSize arm.pending
  fits : w.Fits arm.required
  counts_eq : ∀ a, arm.counts.bytes w a = exactSize (arm.mandatory a)

theorem foldlM_count?_spec (sofar : UnitCounts × Nat) {fields : List Item}
    (whole : ∀ item ∈ fields, item.Whole) {last : UnitCounts × Nat} (exact : sofar.1.Exact w)
    (total : sofar.2 = sofar.1.totalBytes .unbounded)
    (h : fields.foldlM (count? w) sofar = some last) :
    last.1.Exact w ∧ last.2 = last.1.totalBytes .unbounded ∧
      last.2 = sofar.2 + exactSize fields ∧
      ∀ a, last.1.bytes .unbounded a =
        sofar.1.bytes .unbounded a + exactSize (fields.filter (·.align == a)) := by
  induction fields generalizing sofar with
  | nil =>
    cases h
    exact ⟨exact, total, rfl, fun _ => rfl⟩
  | cons item rest ih =>
    rw [List.foldlM_cons] at h
    obtain ⟨⟨counts, n⟩, added, h⟩ := Option.bind_eq_some_iff.mp h
    obtain ⟨exact, known, grown, bytes⟩ := UnitCounts.addBytes?_eq_some exact
      (whole item List.mem_cons_self).size_dvd added
    obtain ⟨exact, known, sum, each⟩ := ih (counts, n)
      (fun other later => whole other (List.mem_cons_of_mem _ later)) exact known h
    have size : exactSize (item :: rest) = item.size + exactSize rest := rfl
    refine ⟨exact, known, by simp only at sum; omega, fun a => ?_⟩
    rw [each a]
    simp only [bytes a]
    by_cases same : item.align = a
    · have here : (item :: rest).filter (·.align == a) =
          item :: rest.filter (·.align == a) := by simp [same]
      have split : exactSize (item :: rest.filter (·.align == a)) =
          item.size + exactSize (rest.filter (·.align == a)) := rfl
      rw [here, split, if_pos same]
      omega
    · have other : (item :: rest).filter (·.align == a) = rest.filter (·.align == a) := by
        simp [same]
      rw [other, if_neg same]
      rfl

/-- An arm of whole fields is collected. -/
theorem collected_of? {index : Nat} {fields : List Item} {arm : Arm}
    (whole : ∀ item ∈ fields, item.Whole) (h : of? w index fields = some arm) :
    arm.Collected w ∧ arm.index = index ∧ arm.pending = fields := by
  obtain rfl := pending_of? h
  obtain ⟨⟨counts, required⟩, counted, made⟩ := Option.map_eq_some_iff.mp h
  have none : 0 = UnitCounts.empty.totalBytes .unbounded := by decide
  obtain ⟨exact, known, sum, each⟩ := foldlM_count?_spec (.empty, 0) whole
    (UnitCounts.exact_empty w) none counted
  have size : required = exactSize arm.pending := by
    simp only [Nat.zero_add] at sum
    exact sum
  have fits : w.Fits required := by
    simp only at known
    rw [known]
    exact exact
  have own : arm.counts = counts := (congrArg Arm.counts made).symm
  have total : arm.required = required := (congrArg Arm.required made).symm
  refine ⟨⟨whole, total ▸ size, total ▸ fits, fun a => ?_⟩, (congrArg Arm.index made).symm, rfl⟩
  have none : UnitCounts.empty.bytes .unbounded a = 0 := by cases a <;> rfl
  have bytes := each a
  rw [none, Nat.zero_add] at bytes
  rw [own, exact.bytes a, bytes, mandatory]

/-! ## The sums of an arm -/

theorem pendingBytes_eq {arm : Arm} (fits : w.Fits (exactSize arm.pending))
    (test : Alignment → Bool) :
    arm.pendingBytes w test = exactSize (arm.pending.filter fun item => test item.align) := by
  have sub : exactSize (arm.pending.filter fun item => test item.align) ≤ exactSize arm.pending :=
    exactSum_le_of_sublist (List.filter_sublist.map _)
  exact (fits.mono sub).wrap

theorem filter_le_eq_mandatory {arm : Arm} (below : arm.Below zone) :
    (arm.pending.filter fun item => decide (zone ≤ item.align)) = arm.mandatory zone := by
  apply List.filter_congr
  intro item member
  have le := below item member
  rw [Bool.eq_iff_iff, decide_eq_true_eq, beq_iff_eq]
  exact ⟨fun ge => Alignment.bytes_injective (Nat.le_antisymm le ge), fun h => h ▸ zone.le_refl⟩

theorem optional_perm {arm : Arm} (below : arm.Below zone) :
    (arm.optional zone).Perm (arm.pending.filter fun item => decide (item.align < zone)) := by
  have same : (arm.pending.filter fun item => decide (item.align < zone)) =
      arm.pending.filter (·.align != zone) := by
    apply List.filter_congr
    intro item member
    have le := below item member
    rw [Bool.eq_iff_iff, decide_eq_true_eq, bne_iff_ne]
    exact ⟨fun lt h => Nat.lt_irrefl _ (h ▸ lt), fun differ => Nat.lt_of_le_of_ne le
      fun h => differ (Alignment.bytes_injective h)⟩
  rw [same]
  exact largestFirst_perm _

theorem clean_zoneSums (w : Width) (zone : Alignment) (arm : Arm) : (arm.zoneSums w zone).Clean :=
  Sums.clean_reachable _ _ _

/-- A sum of an arm is made of its mandatory fields and some of the optional ones. -/
theorem contains_zoneSums {arm : Arm} (below : arm.Below zone)
    (fits : w.Fits (exactSize arm.pending)) {n : Nat}
    (h : (arm.zoneSums w zone).contains n = true) :
    ∃ m, SubsetSum ((arm.optional zone).map (·.size)) m ∧
      exactSize (arm.mandatory zone) + m = n := by
  unfold zoneSums at h
  obtain ⟨_, above, sum⟩ := (Sums.contains_reachable _ _ _ n).mp h
  rw [pendingBytes_eq fits, filter_le_eq_mandatory below] at above sum
  exact ⟨_, subsetSum_perm ((optional_perm below).symm.map _) sum, by omega⟩

end Arm

/-! ## The boundary found -/

/-- A number is at the distance of one of the sums from the start. -/
theorem boundaryWithin?_sound {start lo hi boundary : Nat} {common : Sums} (clean : common.Clean)
    (start_le : start ≤ lo) (h : boundaryWithin? zone start common lo hi = some boundary) :
    lo ≤ boundary ∧ boundary ≤ hi ∧ zone.bytes ∣ boundary - start ∧
      common.contains (boundary - start) = true := by
  unfold boundaryWithin? at h
  split at h
  · contradiction
  · obtain ⟨n, found, rfl⟩ := Option.map_eq_some_iff.mp h
    obtain ⟨⟨above, below, whole, member⟩, _⟩ :=
      Sums.largestMultiple?_spec zone.bytes_pos clean found
    rw [Nat.add_sub_cancel_left]
    exact ⟨by omega, by omega, whole, member⟩

/-- The arms are in descending order of size. -/
def LargestArmFirst (arms : List Arm) : Prop := arms.Pairwise fun a b => b.required ≤ a.required

theorem commonBoundary?_sound {start lo hi boundary : Nat} {common : Sums} {arms : List Arm}
    (clean : common.Clean) (start_le : start ≤ lo) (ordered : LargestArmFirst arms)
    (h : commonBoundary? w zone start lo common hi arms = some boundary) :
    lo ≤ boundary ∧ boundary ≤ hi ∧ zone.bytes ∣ boundary - start ∧
      common.contains (boundary - start) = true ∧
      ∀ arm ∈ arms, boundary ≤ arm.required →
        (arm.zoneSums w zone).contains (boundary - start) = true := by
  induction arms generalizing common hi with
  | nil =>
    unfold commonBoundary? at h
    obtain ⟨above, below, whole, member⟩ := boundaryWithin?_sound clean start_le h
    exact ⟨above, below, whole, member, fun _ absent => absurd absent List.not_mem_nil⟩
  | cons arm rest ih =>
    obtain ⟨largest, ordered⟩ := List.pairwise_cons.mp ordered
    have beyond (short : arm.required < boundary) (other : Arm) (member : other ∈ arm :: rest)
        (reach : boundary ≤ other.required) :
        (other.zoneSums w zone).contains (boundary - start) = true := by
      obtain rfl | later := List.mem_cons.mp member
      · omega
      · have := largest other later
        omega
    unfold commonBoundary? at h
    split at h
    · rename_i short
      obtain ⟨above, below, whole, member⟩ := boundaryWithin?_sound clean start_le h
      exact ⟨above, below, whole, member, beyond (by omega)⟩
    · split at h
      · rename_i found
        cases h
        obtain ⟨above, below, whole, member⟩ := boundaryWithin?_sound clean (by omega) found
        exact ⟨by omega, below, whole, member, beyond (by omega)⟩
      · obtain ⟨above, below, whole, member, each⟩ :=
          ih (Sums.clean_inter _ clean) ordered h
        rw [Sums.contains_inter, Bool.and_eq_true] at member
        refine ⟨above, by omega, whole, member.1, fun other listed reach => ?_⟩
        obtain rfl | later := List.mem_cons.mp listed
        · exact member.2
        · exact each other later reach

/-- A boundary that the search finds is a multiple of the class, lies between the least one and
the size of the largest arm, and every arm that reaches it has a sum that ends there. -/
theorem exactBoundary?_sound {start lo boundary : Nat} {arms : List Arm}
    (aligned : zone.bytes ∣ start) (start_le : start ≤ lo) (ordered : LargestArmFirst arms)
    (h : exactBoundary? w zone start lo arms = some boundary) :
    lo ≤ boundary ∧ zone.bytes ∣ boundary ∧ (∃ arm ∈ arms, boundary ≤ arm.required) ∧
      ∀ arm ∈ arms, boundary ≤ arm.required →
        (arm.zoneSums w zone).contains (boundary - start) = true := by
  cases arms with
  | nil => contradiction
  | cons largest rest =>
    simp only [exactBoundary?] at h
    split at h
    · contradiction
    · obtain ⟨above, below, whole, member, each⟩ := commonBoundary?_sound
        (Arm.clean_zoneSums w zone largest) start_le (List.pairwise_cons.mp ordered).2 h
      have under := Nat.le_trans below (zone.roundDown_le largest.required)
      have back : start + (boundary - start) = boundary := by omega
      refine ⟨above, back ▸ Nat.dvd_add aligned whole, ⟨largest, List.mem_cons_self, under⟩,
        fun arm listed reach => ?_⟩
      obtain rfl | later := List.mem_cons.mp listed
      · exact member
      · exact each arm later reach

end PackedLayout
