import PackedLayout.Proofs.DraftWords
import PackedLayout.Proofs.ZeroWaste

/-!
# The size of a storage

The zones of a storage lie end to end, and every arm fits into them. So the storage is never
smaller than the largest arm, and it is exactly as large where no padding is reported.

- `Storage.placeZone_holds`, `Storage.holds_of_place`: what filling one zone, and all zones, keeps;
- `Storage.bytes_zones`: the zones have the size of the storage;
- `Resolution.required_le_total`, `Resolution.total_eq_required`: the storage of a resolution.
-/

namespace PackedLayout

variable {w : Width} {limit : Nat} {target : Boundaries} {arms : List Arm} {zone : Alignment}
  {zones : List Alignment} {s after last : Storage}

/-! ## Zones end to end -/

namespace Storage

/-- The zones filled so far lie end to end, and every arm fits into them but for what it still has
to place. -/
structure Holds (arms : List Arm) (s : Storage) : Prop where
  tiled : exactSum (s.steps.map (·.size)) = s.start
  room : ∀ arm ∈ arms, ∃ now ∈ s.arms, exactSize arm.pending ≤ s.start + exactSize now.pending

theorem holds_start (arms : List Arm) : Holds arms { arms } where
  tiled := rfl
  room := by
    intro arm member
    exact ⟨arm, member, by simp⟩

theorem placeZone_holds (placing : Placing w arms (zone :: zones) s) (h : Holds arms s)
    (placed : s.placeZone w limit target zone = .ok after) : Holds arms after := by
  obtain ⟨_, room⟩ := placeZone_room placing placed
  constructor
  · obtain ⟨_, step, filled, rfl⟩ := placeZone_eq_ok.mp placed
    obtain ⟨sound, _, began, _⟩ := (ZoneStep.ensures_fillZone placing.below).of_ok filled
    simp [exactSum_append, exactSum_cons, exactSum_nil, h.tiled, sound.stop_eq, began]
  · intro arm member
    obtain ⟨now, here, fits⟩ := h.room arm member
    obtain ⟨next, there, le⟩ := room now here
    exact ⟨next, there, Nat.le_trans fits le⟩

theorem placeZones_holds (placing : Placing w arms zones s) (h : Holds arms s)
    (placed : zones.foldlM (placeZone w limit target) s = .ok last) : Holds arms last := by
  induction zones generalizing s with
  | nil =>
    cases placed
    exact h
  | cons zone rest ih =>
    rw [List.foldlM_cons, bind_eq_ok] at placed
    obtain ⟨after, first, placed⟩ := placed
    exact ih ((ensures_placeZone placing).of_ok first) (placeZone_holds placing h first) placed

/-- The zones of a storage lie end to end up to its total, and every arm fits into them. -/
theorem holds_of_place (placed : place w limit target arms = .ok s) :
    exactSum (s.steps.map (·.size)) = s.ends.total ∧
      ∀ arm ∈ arms, exactSize arm.pending ≤ s.ends.total := by
  have run := placeZones_of_place placed
  have h := placeZones_holds (Placing.start w arms) (holds_start arms) run
  have exhausted := ((ensures_place w limit target arms).of_ok placed).exhausted
  rw [total_of_placeZones run]
  constructor
  · exact h.tiled
  · intro arm member
    obtain ⟨now, here, fits⟩ := h.room arm member
    rwa [exhausted now here] at fits

/-- The zones of a storage have its total size. -/
theorem bytes_zones (placed : place w limit target arms = .ok s) :
    (Container.body (s.zones w)).bytes = s.ends.total := by
  have sound := (ensures_place w limit target arms).of_ok placed
  have size (step : ZoneStep) (member : step ∈ s.steps) :
      ((s.zones w).get step.zone).size = step.size := by
    rw [(sound.get_zones member).1]
    rfl
  calc (Container.body (s.zones w)).bytes
      = exactSum ((s.steps.map (·.zone)).map fun a => ((s.zones w).get a).size) := by
        rw [sound.zones, Container.bytes, PerClass.toList_eq_map_get, List.map_map]
        rfl
    _ = exactSum (s.steps.map (·.size)) := by
        rw [List.map_map]
        exact congrArg exactSum (List.map_congr_left size)
    _ = s.ends.total := (holds_of_place placed).1

end Storage

/-! ## Resolutions -/

namespace Resolution

variable {r : Resolution}

theorem exists_place (resolved : ofArms w limit arms = .ok r) :
    Storage.place w limit r.target (byRequirement arms) = .ok r.storage ∧
      r.required = (arms.map (·.required)).foldl max 0 ∧
      r.degradations = r.plan.degradations limit r.required ++ r.storage.padding r.required := by
  obtain ⟨plan, _, resolved⟩ := bind_eq_ok.mp resolved
  obtain ⟨storage, placed, resolved⟩ := bind_eq_ok.mp resolved
  cases resolved
  exact ⟨placed, largestSize_byRequirement arms, rfl⟩

/-- The storage has room for the largest arm. -/
theorem required_le_total (collected : ∀ arm ∈ arms, arm.Collected w)
    (resolved : ofArms w limit arms = .ok r) : r.required ≤ r.layout.total := by
  obtain ⟨placed, required, _⟩ := exists_place resolved
  rw [required]
  refine ZoneStep.foldl_max_map_le (Nat.zero_le _) fun arm member => ?_
  rw [(collected arm member).required_eq]
  exact (Storage.holds_of_place placed).2 arm ((byRequirement_perm arms).mem_iff.mpr member)

/-- Where no padding is reported, the storage is as large as the largest arm. -/
theorem total_eq_required (collected : ∀ arm ∈ arms, arm.Collected w)
    (resolved : ofArms w limit arms = .ok r) (unpadded : ∀ n, .padded n ∉ r.degradations) :
    r.layout.total = r.required := by
  obtain ⟨_, _, degradations⟩ := exists_place resolved
  have le := required_le_total collected resolved
  by_cases larger : r.required < r.storage.ends.total
  · refine absurd ?_ (unpadded (r.storage.ends.total - r.required))
    simp [degradations, Storage.padding, larger]
  · exact Nat.le_antisymm (Nat.not_lt.mp larger) le

theorem bytes_zones (resolved : ofArms w limit arms = .ok r) :
    (Container.body (r.storage.zones w)).bytes = r.layout.total :=
  Storage.bytes_zones (exists_place resolved).1

end Resolution

end PackedLayout
