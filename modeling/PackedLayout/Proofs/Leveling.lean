import PackedLayout.Proofs.Searching

/-!
# Filling zones without waste

An arm is level at an offset when it still has to place exactly what it needs above that offset.
Zones are filled without waste as long as every arm stays level, which means that its fields tile
the storage from the bottom up:

- `Arm.fill_level`: an arm that can end a zone exactly, or ends below it, is level at its end;
- `Storage.Even.placeZone`: a zone that every arm can end exactly ends at its target, and the
  storage under way stays even.
-/

namespace PackedLayout

/-- Items with offsets lie one right after the other from `lo` to `hi`. -/
def Tiles : Nat → List (Nat × Item) → Nat → Prop
  | lo, [], hi => lo = hi
  | lo, (offset, item) :: rest, hi => offset = lo ∧ Tiles (lo + item.size) rest hi

theorem Tiles.append {lo mid hi : Nat} {items others : List (Nat × Item)}
    (first : Tiles lo items mid) (second : Tiles mid others hi) :
    Tiles lo (items ++ others) hi := by
  induction items generalizing lo with
  | nil =>
    rw [show lo = mid from first]
    exact second
  | cons item rest ih => exact ⟨first.1, ih first.2⟩

theorem tiles_backToBack (lo : Nat) (items : List Item) :
    Tiles lo (backToBack lo items) (lo + exactSize items) := by
  induction items generalizing lo with
  | nil => exact rfl
  | cons item rest ih =>
    have size : exactSize (item :: rest) = item.size + exactSize rest := rfl
    rw [size, ← Nat.add_assoc]
    exact ⟨rfl, ih (lo + item.size)⟩

theorem map_backToBack (distance start : Nat) (items : List Item) :
    (backToBack start items).map (fun at_ => (distance + at_.1, at_.2)) =
      backToBack (distance + start) items := by
  induction items generalizing start with
  | nil => rfl
  | cons item rest ih => rw [backToBack, backToBack, List.map_cons, ih, Nat.add_assoc]

variable {w : Width} {limit start stop total : Nat} {zone : Alignment}

namespace Arm

/-- What the arm has left is what it needs above `start`. -/
def Level (start : Nat) (arm : Arm) : Prop := exactSize arm.pending = arm.required - start

/-- Some of the optional fields fill the room together with all mandatory ones. -/
def CanFill (zone : Alignment) (room : Nat) (arm : Arm) : Prop :=
  ∃ n, SubsetSum ((arm.optional zone).map (·.size)) n ∧ exactSize (arm.mandatory zone) + n = room

/-- An arm of which nothing is mandatory can leave a zone empty. -/
theorem canFill_zero {arm : Arm} (none : exactSize (arm.mandatory zone) = 0) :
    arm.CanFill zone 0 := ⟨0, SubsetSum.zero _, none⟩

theorem mandatory_le_pending (zone : Alignment) (arm : Arm) :
    exactSize (arm.mandatory zone) ≤ exactSize arm.pending := by
  rw [exactSize_pending zone arm]
  exact Nat.le_add_right _ _

/-- An arm that is level where a zone starts, and can end the zone exactly unless it ends before,
fills it and is level where the zone ends. -/
theorem fill_level {arm : Arm} (below : arm.Below zone) (fits : w.Fits (exactSize arm.pending))
    (small : exactSize arm.pending ≤ limit) (level : arm.Level start) (forward : start ≤ stop)
    (canFill : stop ≤ arm.required → arm.CanFill zone (stop - start)) :
    ∃ r, arm.fill w limit zone (stop - start) = .ok r ∧ Filled zone arm r.1 r.2 ∧
      r.1.Level stop ∧ r.2.height = min arm.required stop - start := by
  obtain ⟨mask, best, filled⟩ :=
    exists_fill limit (stop - start) below fits
  have sound := (ensures_fill below).of_ok filled
  refine ⟨_, filled, sound, ?_⟩
  have split := exactSize_pending zone arm
  have parts := exactSize_perm (arm.picked_append_left_perm zone mask)
  rw [exactSize_append, picked, exactSize_append] at parts
  have within := best.within
  have optimal := best.best (by omega)
  rw [Level] at level ⊢
  show exactSize (arm.left zone mask).pending = arm.required - stop ∧
    exactSize (arm.picked zone mask) = min arm.required stop - start
  rw [picked, exactSize_append]
  by_cases reach : stop ≤ arm.required
  · -- the best choice is at least as good as the one that fills the zone exactly
    obtain ⟨n, sum, exactly⟩ := canFill reach
    have least := optimal n sum (by omega)
    omega
  · -- everything fits, so the best choice takes everything
    have room : exactSize (arm.optional zone) ≤ stop - start - exactSize (arm.mandatory zone) := by
      omega
    have all : exactSize (arm.optional zone) ≤ exactSize (chosen (arm.optional zone) mask) :=
      optimal _ ⟨_, List.Sublist.refl _, rfl⟩ room
    omega

end Arm

namespace ZoneStep

/-- Where a zone can end without waste: some arm gets as far, and every arm that does can fill the
zone exactly. -/
structure EndsAt (zone : Alignment) (start stop : Nat) (arms : List Arm) : Prop where
  forward : start ≤ stop
  aligned : zone.bytes ∣ stop
  reached : stop = start ∨ ∃ arm ∈ arms, stop ≤ arm.required
  canFill : ∀ arm ∈ arms, stop ≤ arm.required → arm.CanFill zone (stop - start)

theorem fill_level (limit : Nat) {arms : List Arm} (endsAt : EndsAt zone start stop arms)
    (aligned : zone.bytes ∣ start) (fits : w.Fits stop)
    (below : ∀ arm ∈ arms, arm.Below zone) (level : ∀ arm ∈ arms, arm.Level start)
    (small : ∀ arm ∈ arms, w.Fits arm.required ∧ arm.required ≤ limit) :
    ∃ step results, ZoneStep.fill w limit zone start stop arms = .ok step ∧
      step.zone = zone ∧ step.start = start ∧ step.stop = stop ∧
      step.after = results.map (·.1) ∧ step.armStacks = results.map (·.2) ∧
      List.Forall₂ (fun arm (r : Arm × Stack) => Arm.Filled zone arm r.1 r.2 ∧
        r.1.Level stop ∧ r.2.height = min arm.required stop - start) arms results := by
  have le (arm : Arm) (member : arm ∈ arms) : exactSize arm.pending ≤ arm.required := by
    rw [level arm member]
    exact Nat.sub_le _ _
  obtain ⟨results, filled⟩ := exists_forall₂ fun arm member =>
    Arm.fill_level (w := w) (below arm member) ((small arm member).1.mono (le arm member))
      (Nat.le_trans (le arm member) (small arm member).2) (level arm member) endsAt.forward
      (endsAt.canFill arm member)
  have ran := mapM_eq_ok.mpr (filled.imp fun _ _ h => h.1)
  have each := filled.imp fun _ _ h => h.2
  have height : highest (results.map (·.2)) = stop - start := by
    refine Nat.le_antisymm (highest_le fun stack member => ?_) ?_
    · obtain ⟨r, listed, rfl⟩ := List.mem_map.mp member
      obtain ⟨arm, _, _, _, own⟩ := exists_left_of_mem each listed
      rw [own]
      exact Nat.sub_le_sub_right (Nat.min_le_right _ _) start
    · obtain same | ⟨arm, member, reach⟩ := endsAt.reached
      · rw [same, Nat.sub_self]
        exact Nat.zero_le _
      · obtain ⟨r, listed, _, _, own⟩ := exists_right_of_mem each member
        rw [Nat.min_eq_right reach] at own
        rw [← own]
        exact height_le_highest (List.mem_map_of_mem listed)
  have size : zone.roundUp? w (highest (results.map (·.2))) = some (stop - start) := by
    rw [height]
    exact Alignment.roundUp?_of_dvd (fits.mono (Nat.sub_le _ _))
      (Nat.dvd_sub endsAt.aligned aligned)
  have next : w.checked (start + (stop - start)) = some stop := by
    rw [Nat.add_sub_cancel' endsAt.forward]
    exact fits
  refine ⟨⟨zone, start, stop - start, arms, results.map (·.1), results.map (·.2), stop - start,
    stop⟩, results, ?_, rfl, rfl, rfl, rfl, rfl, each⟩
  unfold ZoneStep.fill
  simp only [ran, bind, Except.bind, size, next, orOverflow_some, pure, Except.pure]

end ZoneStep

/-- Arms of one variant, largest first, whose largest size `total` is within the limit of the
search. -/
structure Searchable (w : Width) (limit total : Nat) (arms : List Arm) : Prop where
  collected : ∀ arm ∈ arms, arm.Collected w
  ordered : LargestArmFirst arms
  largest : ∀ arm ∈ arms, arm.required ≤ total
  attained : total = 0 ∨ ∃ arm ∈ arms, arm.required = total
  fits : w.Fits total
  small : total ≤ limit

namespace Storage

/-- The fields that the arm at position `k` has placed so far, counted from the start of the
storage. -/
def placed (s : Storage) (k : Nat) : List (Nat × Item) :=
  s.steps.flatMap fun step =>
    (step.armStacks[k]?.getD {}).placed.reverse.map fun at_ => (step.start + at_.1, at_.2)

/-- An arm that now has some fields left, and the ones it placed below `start` without waste. -/
structure ArmEven (zones : List Alignment) (start : Nat) (arm now : Arm)
    (placed : List (Nat × Item)) : Prop where
  same : now = { arm with fields := now.fields }
  within : now.Within zones
  level : now.Level start
  tiles : Tiles 0 placed (min arm.required start)
  perm : (placed.map (·.2) ++ now.pending).Perm arm.pending

theorem ArmEven.fill {zones : List Alignment} {arm now after : Arm} {stack : Stack}
    {placed : List (Nat × Item)} (even : ArmEven (zone :: zones) start arm now placed)
    (whole : ∀ item ∈ arm.pending, item.Whole) (forward : start ≤ stop)
    (filled : now.Filled zone after stack) (level : after.Level stop)
    (height : stack.height = min arm.required stop - start) :
    ArmEven zones stop arm after (placed ++ backToBack start stack.items) where
  same := by
    have same := filled.same
    rw [even.same] at same
    exact same
  within := filled.within even.within
  level := level
  tiles := by
    refine even.tiles.append ?_
    by_cases above : start ≤ arm.required
    · have top := tiles_backToBack start stack.items
      rw [← filled.compact.height, height] at top
      have meets : start + (min arm.required stop - start) = min arm.required stop := by omega
      rw [Nat.min_eq_right above]
      rwa [meets] at top
    · -- the arm ends below the zone, so it places nothing in it
      have flat : exactSize stack.items = 0 := by
        rw [← filled.compact.height, height]
        omega
      have none : stack.items = [] := by
        refine eq_nil_of_exactSize (fun item placed => whole item ?_) flat
        exact even.perm.mem_iff.mp (List.mem_append_right _ (filled.mem_of_mem_items placed))
      rw [none]
      show min arm.required start = min arm.required stop
      omega
  perm := by
    rw [List.map_append, map_snd_backToBack, List.append_assoc]
    exact (List.Perm.append_left _ filled.perm).trans even.perm

theorem placed_concat {s : Storage} {step : ZoneStep} {k : Nat} {stack : Stack} {after : List Arm}
    {ends : Boundaries} (here : step.armStacks[k]? = some stack) (compact : stack.Compact) :
    placed ⟨after, stop, s.steps ++ [step], ends⟩ k =
      s.placed k ++ backToBack step.start stack.items := by
  unfold placed
  rw [List.flatMap_append, List.flatMap_singleton, here, Option.getD_some, compact.placed,
    map_backToBack, Nat.add_zero]

/-- A storage under way in which every arm is level, with some zones still to fill. -/
structure Even (total : Nat) (arms : List Arm) (zones : List Alignment) (s : Storage) : Prop where
  order : s.steps.map (·.zone) ++ zones = Alignment.descending
  aligned : ∀ zone ∈ zones, zone.bytes ∣ s.start
  start_le : s.start ≤ total
  ends_le : ∀ zone, s.ends.boundary zone ≤ s.start
  length_eq : s.arms.length = arms.length
  each : ∀ (k : Nat) arm now, arms[k]? = some arm → s.arms[k]? = some now →
    ArmEven zones s.start arm now (s.placed k)

variable {arms : List Arm} {zones : List Alignment} {s : Storage}

theorem even_start (searchable : Searchable w limit total arms) :
    Even total arms Alignment.descending { arms } where
  order := rfl
  aligned := fun _ _ => Nat.dvd_zero _
  start_le := Nat.zero_le _
  ends_le := fun zone => by cases zone <;> exact Nat.le_refl 0
  length_eq := rfl
  each := by
    intro k arm now here there
    obtain rfl := Option.some.inj (here.symm.trans there)
    exact ⟨rfl, arm.within_descending,
      (searchable.collected arm (List.mem_of_getElem? here)).required_eq.symm,
      (Nat.min_zero arm.required).symm, List.Perm.refl _⟩

namespace Even

theorem ordered (even : Even total arms zones s) : zones.Pairwise fun a b => b < a := by
  have all : Alignment.descending.Pairwise fun a b => b < a := by decide
  rw [← even.order] at all
  exact (List.pairwise_append.mp all).2.1

/-- Every arm that is being placed comes from one of the arms. -/
theorem origin (even : Even total arms zones s) {now : Arm} (member : now ∈ s.arms) :
    ∃ k arm, arms[k]? = some arm ∧ s.arms[k]? = some now ∧
      ArmEven zones s.start arm now (s.placed k) := by
  obtain ⟨k, inside, rfl⟩ := List.mem_iff_getElem.mp member
  have there := List.getElem?_eq_getElem inside
  have here := List.getElem?_eq_getElem (even.length_eq ▸ inside)
  exact ⟨k, _, here, there, even.each k _ _ here there⟩

theorem below (even : Even total arms (zone :: zones) s) {now : Arm} (member : now ∈ s.arms) :
    now.Below zone := by
  obtain ⟨_, _, _, _, own⟩ := even.origin member
  exact own.within.below even.ordered

theorem level (even : Even total arms zones s) {now : Arm} (member : now ∈ s.arms) :
    now.Level s.start := by
  obtain ⟨_, _, _, _, own⟩ := even.origin member
  exact own.level

theorem required (even : Even total arms zones s) {now : Arm} (member : now ∈ s.arms) :
    ∃ arm ∈ arms, now.required = arm.required ∧ now.counts = arm.counts ∧
      ∀ item ∈ now.pending, item ∈ arm.pending := by
  obtain ⟨_, arm, here, _, own⟩ := even.origin member
  refine ⟨arm, List.mem_of_getElem? here, ?_, ?_, fun item left => ?_⟩
  · rw [own.same]
  · rw [own.same]
  · exact own.perm.mem_iff.mp (List.mem_append_right _ left)

theorem required_le (even : Even total arms zones s) (searchable : Searchable w limit total arms)
    {now : Arm} (member : now ∈ s.arms) : now.required ≤ total := by
  obtain ⟨arm, listed, same, _⟩ := even.required member
  exact same ▸ searchable.largest arm listed

/-- No arm has more left than the storage still needs. -/
theorem pending_le (even : Even total arms zones s) (searchable : Searchable w limit total arms)
    {now : Arm} (member : now ∈ s.arms) : exactSize now.pending ≤ total - s.start := by
  have level := even.level member
  have le := even.required_le searchable member
  rw [Arm.Level] at level
  omega

theorem fits_pending (even : Even total arms zones s) (searchable : Searchable w limit total arms)
    {now : Arm} (member : now ∈ s.arms) : w.Fits (exactSize now.pending) :=
  searchable.fits.mono (Nat.le_trans (even.pending_le searchable member) (Nat.sub_le _ _))

/-- A zone that every arm can end exactly ends at its target, and the storage stays even. -/
theorem placeZone (even : Even total arms (zone :: zones) s)
    (searchable : Searchable w limit total arms) (stop_le : stop ≤ total)
    (endsAt : ZoneStep.EndsAt zone s.start stop s.arms) (target : Boundaries)
    (hit : target.boundary zone = stop) :
    ∃ next, s.placeZone w limit target zone = .ok next ∧ next.start = stop ∧
      next.ends = s.ends.setBoundary zone stop ∧ Even total arms zones next := by
  have small (now : Arm) (member : now ∈ s.arms) : w.Fits now.required ∧ now.required ≤ limit := by
    have le := even.required_le searchable member
    exact ⟨searchable.fits.mono le, Nat.le_trans le searchable.small⟩
  have aligned := even.aligned zone List.mem_cons_self
  obtain ⟨step, results, filled, here, began, ended, after, piles, each⟩ :=
    ZoneStep.fill_level limit endsAt aligned (searchable.fits.mono stop_le)
      (fun _ member => even.below member) (fun _ member => even.level member) small
  refine ⟨⟨step.after, stop, s.steps ++ [step], s.ends.setBoundary zone stop⟩, ?_, rfl, rfl, ?_⟩
  · exact placeZone_eq_ok.mpr ⟨aligned, step, hit ▸ filled, by rw [ended]⟩
  refine ⟨?_, fun next member => ?_, stop_le, fun other => ?_, ?_, fun k arm now own later => ?_⟩
  · simp only [List.map_append, List.map_cons, List.map_nil, here, List.append_assoc,
      List.singleton_append, even.order]
  · have smaller := (List.pairwise_cons.mp even.ordered).1 next member
    exact Nat.dvd_trans (Alignment.bytes_dvd_of_le (Alignment.le_of_lt smaller)) endsAt.aligned
  · rw [Boundaries.boundary_setBoundary]
    split
    · exact Nat.le_refl _
    · exact Nat.le_trans (even.ends_le other) endsAt.forward
  · show step.after.length = arms.length
    rw [after, List.length_map, ← each.length_eq, even.length_eq]
  · change step.after[k]? = some now at later
    rw [after, List.getElem?_map] at later
    obtain ⟨r, result, rfl⟩ := Option.map_eq_some_iff.mp later
    obtain ⟨inside, rfl⟩ := List.getElem?_eq_some_iff.mp result
    have was : k < s.arms.length := each.length_eq ▸ inside
    obtain ⟨fill, level, height⟩ := (List.forall₂_iff_get.mp each).2 k was inside
    change Arm.Filled zone s.arms[k] results[k].1 results[k].2 at fill
    change results[k].2.height = min s.arms[k].required stop - s.start at height
    have before := even.each k arm _ own (List.getElem?_eq_getElem was)
    have required : s.arms[k].required = arm.required := by rw [before.same]
    have stack : step.armStacks[k]? = some results[k].2 := by
      rw [piles, List.getElem?_map, result]
      rfl
    rw [placed_concat stack fill.compact, began]
    exact before.fill (searchable.collected arm (List.mem_of_getElem? own)).whole
      endsAt.forward fill level (required ▸ height)

end Even

end Storage

end PackedLayout
