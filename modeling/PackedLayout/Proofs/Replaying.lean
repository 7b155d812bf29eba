import PackedLayout.Proofs.Ascending
import PackedLayout.Proofs.Completeness

/-!
# The plan is what happens

Planning the zones of some arms fills them on the way. Placing the fields as far as the plan goes
through the same steps again: every zone begins at the same place, with the same room and the same
fields left, and takes the same of them.

- `Underway.search_replays`: the steps of a search are taken again;
- `search_completes`: a search that degrades no class and is complete early leaves nothing
  behind the class that completes it;
- `ZonePlan.ofArms_replays`: so it is for every plan.
-/

namespace PackedLayout

variable {w : Width} {limit total : Nat} {zones : List Alignment} {arms : List Arm}

namespace ZonePlan

variable {p : Progress} {plan : ZonePlan} {s : Storage}

/-! ## The steps of a search -/

/-- Placing the fields as far as a plan goes through the steps of the search for it, which ends
early only if it was not skipped. -/
theorem Underway.search_replays (under : Underway w limit total (zones ++ [.one]) p)
    (follows : p.Follows s) (run : ZonePlan.search w limit total zones p = .ok plan) :
    ∃ done last, done <+: zones ∧
      done.foldlM (Storage.placeZone w limit plan.boundaries) s = .ok last ∧
      last.steps = plan.steps ∧ (done = zones ∨ plan.skipped = false) := by
  induction zones generalizing p s with
  | nil =>
    cases run
    exact ⟨[], s, List.prefix_refl _, rfl, follows.steps.symm, .inl rfl⟩
  | cons zone rest ih =>
    obtain ⟨_, _, _, searched, _, rfl⟩ | ⟨boundary, next, step, closes, onward, run⟩ :=
      under.search_cons run
    · exact ⟨[], s, List.nil_prefix, rfl, follows.steps.symm, .inr searched⟩
    · have aligned : zone.bytes ∣ s.start :=
        follows.reached ▸ under.aligned zone List.mem_cons_self
      obtain ⟨after, placed, follows⟩ :=
        closes.placeZone follows aligned (under.boundary_of_closes closes run)
      obtain ⟨done, last, within, replayed, steps, ended⟩ := ih onward follows run
      refine ⟨zone :: done, last, List.cons_prefix_cons.mpr ⟨rfl, within⟩, ?_, steps, ?_⟩
      · rw [List.foldlM_cons, placed]
        exact replayed
      · exact ended.imp_left (congrArg (List.cons zone))

/-! ## Plans that are complete early -/

/-- An arm that is level where the largest one ends has nothing left. -/
theorem pending_eq_nil_of_full (searchable : Searchable w limit total arms)
    (even : s.Even total arms zones) (full : s.start = total) :
    ∀ now ∈ s.arms, now.pending = [] := by
  intro now member
  obtain ⟨arm, listed, _, _, own⟩ := even.required member
  have left := even.pending_le searchable member
  apply eq_nil_of_exactSize
  · intro item left
    exact (searchable.collected arm listed).whole item (own item left)
  · omega

/-- A search that degrades no class goes through all zones, or is complete at a zone that takes all
fields that are left. -/
theorem search_completes (searchable : Searchable w limit total arms)
    (even : s.Even total arms (zones ++ [.one])) (follows : p.Follows s)
    (run : search w limit total zones p = .ok plan) (searched : plan.skipped = false)
    (undegraded : plan.degraded = []) :
    ∃ done last, done.foldlM (Storage.placeZone w limit plan.boundaries) s = .ok last ∧
      last.steps = plan.steps ∧ (done = zones ∨ ∃ zone after, done ++ [zone] <+: zones ∧
        last.placeZone w limit plan.boundaries zone = .ok after ∧
        ∀ now ∈ after.arms, now.pending = []) := by
  induction zones generalizing p s with
  | nil =>
    cases run
    exact ⟨[], s, rfl, follows.steps.symm, .inl rfl⟩
  | cons zone rest ih =>
    rw [List.cons_append] at even
    obtain ⟨endsAt, rfl⟩ | ⟨boundary, next, endsAt, le, closed, run⟩ :=
      search_cons_of_even searchable even follows run searched undegraded
    · have hit : (p.plan.boundaries.endFrom zone total).boundary zone = total := by
        rw [Boundaries.boundary_endFrom, if_pos zone.le_refl]
      obtain ⟨after, placed, full, _, kept⟩ :=
        even.placeZone searchable (Nat.le_refl total) endsAt _ hit
      exact ⟨[], s, rfl, follows.steps.symm, .inr ⟨zone, after,
        List.cons_prefix_cons.mpr ⟨rfl, List.nil_prefix⟩, placed,
        pending_eq_nil_of_full searchable kept full⟩⟩
    · have hit := boundary_of_search (List.pairwise_cons.mp even.ordered).1
        (boundaries_of_close closed) run
      obtain ⟨after, placed, kept, follows, _⟩ :=
        follows.close_even searchable even le endsAt closed hit
      obtain ⟨done, last, replayed, steps, ended⟩ := ih kept follows run
      refine ⟨zone :: done, last, ?_, steps, ?_⟩
      · rw [List.foldlM_cons, placed]
        exact replayed
      · obtain all | ⟨other, full, within, taken⟩ := ended
        · exact .inl (congrArg (List.cons zone) all)
        · exact .inr ⟨other, full, List.cons_prefix_cons.mpr ⟨rfl, within⟩, taken⟩

/-! ## The plan of a variant -/

/-- What a plan goes through: as many classes as it has steps, and all classes down to 2 unless it
is complete early. -/
theorem exists_replay (collected : ∀ arm ∈ arms, arm.Collected w) (ordered : LargestArmFirst arms)
    (planned : ofArms w limit arms = .ok plan) :
    ∃ done s, done <+: [.eight, .four, .two] ∧
      done.foldlM (Storage.placeZone w limit plan.boundaries) { arms } = .ok s ∧
      s.steps = plan.steps ∧
      (done = [.eight, .four, .two] ∨ plan.skipped = false ∧ (plan.degraded = [] →
        ∃ zone after, done ++ [zone] <+: [.eight, .four, .two] ∧
          s.placeZone w limit plan.boundaries zone = .ok after ∧
          ∀ arm ∈ after.arms, arm.pending = [])) := by
  cases arms with
  | nil =>
    cases planned
    refine ⟨[], _, List.nil_prefix, rfl, rfl, .inr ⟨rfl, fun _ => ?_⟩⟩
    cases w <;> exact ⟨.eight, _, by decide, rfl, fun _ absent => absurd absent List.not_mem_nil⟩
  | cons largest others =>
    have under := @underway_start w limit _ _ collected ordered
    obtain ⟨done, s, within, replayed, steps, ended⟩ :=
      @Underway.search_replays w limit _ [.eight, .four, .two] _ _ { arms := largest :: others }
        under ⟨rfl, rfl, rfl⟩ planned
    refine ⟨done, s, within, replayed, steps, ?_⟩
    by_cases all : done = [.eight, .four, .two]
    · exact .inl all
    have searched := ended.resolve_left all
    refine .inr ⟨searched, fun undegraded => ?_⟩
    have skipped := (search_keeps planned).1
    rw [searched] at skipped
    have small : largest.required ≤ limit := Nat.not_lt.mp (of_decide_eq_false skipped.symm)
    have searchable := searchable_of_ordered collected ordered small
    obtain ⟨again, s', replayed', steps', ended'⟩ :=
      @search_completes w limit _ [.eight, .four, .two] _ _ _ { arms := largest :: others }
        searchable (Storage.even_start searchable) ⟨rfl, rfl, rfl⟩ planned searched undegraded
    -- both runs have as many steps, so they went through the same zones
    have same : done = again := by
      rw [← (Storage.fills_of_start replayed).zones_eq,
        ← (Storage.fills_of_start replayed').zones_eq, steps, steps']
    subst same
    obtain rfl := Except.ok.inj (replayed.symm.trans replayed')
    exact ended'.resolve_left all

/-- Placing the fields of some arms by their plan first goes through the very steps of the plan:
the zones begin at the same places, have the same room and the same fields before and after, and
get the same stacks of them and the same size. A plan has three steps, unless it is complete early;
then, if no class is degraded, the next zone takes all fields that are left. -/
theorem ofArms_replays (collected : ∀ arm ∈ arms, arm.Collected w) (ordered : LargestArmFirst arms)
    (planned : ofArms w limit arms = .ok plan) :
    ∃ s, (Alignment.descending.take plan.steps.length).foldlM
        (Storage.placeZone w limit plan.boundaries) { arms } = .ok s ∧
      s.steps = plan.steps ∧ plan.steps.length ≤ 3 ∧
      (∀ last, Storage.place w limit plan.boundaries arms = .ok last → plan.steps <+: last.steps) ∧
      (plan.steps.length < 3 → plan.degraded = [] →
        ∃ zone after, Alignment.descending[plan.steps.length]? = some zone ∧
          s.placeZone w limit plan.boundaries zone = .ok after ∧
          ∀ arm ∈ after.arms, arm.pending = []) := by
  obtain ⟨done, s, within, replayed, steps, ended⟩ := exists_replay collected ordered planned
  have count : plan.steps.length = done.length := by
    rw [← steps, ← (Storage.fills_of_start replayed).zones_eq, List.length_map]
  have larger : [.eight, .four, .two] <+: Alignment.descending := ⟨[.one], rfl⟩
  have taken : Alignment.descending.take plan.steps.length = done := by
    rw [count]
    exact (List.prefix_iff_eq_take.mp (within.trans larger)).symm
  refine ⟨s, ?_, steps, ?_, ?_, ?_⟩
  · rw [taken]
    exact replayed
  · rw [count]
    exact within.length_le
  · intro last placed
    have run := Storage.placeZones_of_place placed
    rw [← List.take_append_drop plan.steps.length Alignment.descending, List.foldlM_append, taken,
      replayed] at run
    obtain ⟨_, fills⟩ := Storage.fills_of_placeZones run
    rw [fills.steps_eq, steps]
    exact List.prefix_append _ _
  · intro early undegraded
    have unfinished : done ≠ [.eight, .four, .two] := by
      rintro rfl
      exact absurd count (Nat.ne_of_lt early)
    obtain ⟨zone, after, onward, last⟩ := (ended.resolve_left unfinished).2 undegraded
    refine ⟨zone, after, ?_, last⟩
    obtain ⟨others, all⟩ := onward.trans larger
    rw [← all, count]
    simp

/-- An arm with fields of 8 and 4 bytes, and one with three fields of 4 bytes. -/
def blocks : List Arm :=
  [⟨0, ⟨⟨1, 1, 0, 0⟩⟩, 12, [some ⟨8, .eight, []⟩, some ⟨4, .four, []⟩]⟩,
    ⟨1, ⟨⟨0, 3, 0, 0⟩⟩, 12, [some ⟨4, .four, []⟩, some ⟨4, .four, []⟩, some ⟨4, .four, []⟩]⟩]

/-- The first zone takes 8 bytes of each arm, and the second one all others. -/
theorem ofArms_replays_blocks :
    ∃ (plan : ZonePlan) (s after : Storage), ofArms .bits64 64 blocks = .ok plan ∧
      s.steps = plan.steps ∧ plan.steps.map (·.size) = [8] ∧
      s.placeZone .bits64 64 plan.boundaries .four = .ok after ∧
      ∀ arm ∈ after.arms, arm.pending = [] := by
  have collected : ∀ arm ∈ blocks, arm.Collected .bits64 := by
    intro arm member
    have units : ∀ item ∈ arm.pending, item.size = item.align.bytes := by
      revert arm
      decide
    have made : Arm.of? .bits64 arm.index arm.pending = some arm := by
      revert arm
      decide
    exact (Arm.collected_of? (fun item listed => Item.Unit.whole (units item listed)) made).1
  have ordered : LargestArmFirst blocks := by simp [LargestArmFirst, blocks]
  obtain ⟨plan, planned, sizes, undegraded⟩ : ∃ plan, ofArms .bits64 64 blocks = .ok plan ∧
      plan.steps.map (·.size) = [8] ∧ plan.degraded = [] := ⟨_, by rfl, by rfl, by rfl⟩
  have one : plan.steps.length = 1 := by simpa using congrArg List.length sizes
  obtain ⟨s, _, steps, _, _, completes⟩ := ofArms_replays collected ordered planned
  obtain ⟨zone, after, next, placed, left⟩ := completes (by omega) undegraded
  rw [one] at next
  cases next
  exact ⟨plan, s, after, planned, steps, sizes, placed, left⟩

end ZonePlan

end PackedLayout
