import PackedLayout.Proofs.Gaps
import PackedLayout.Proofs.Outcomes
import PackedLayout.Variant.ZoneStep

/-!
# Filling a zone

An arm that has no field of a larger class left fills a zone with all of its fields of the class
and with the best choice among the smaller ones:

- `Arm.select_eq`: an arm picks its fields by a mask that only their sizes tell;
- `Arm.fill_eq`: and it places what it picks, none of which was placed before;
- `exists_fill`, `fill_of_not_fits`: the arm fails only when its fields together do not fit, and
  otherwise places the fields of the class and a choice that `FillsBest`;
- `Arm.Filled`: what every arm does with its fields in a zone: each is placed or stays;
- `ensures_fillZone`: filling a zone for all arms is sound, or overflows.
-/

namespace PackedLayout

/-- The items a mask takes fit the room, and no others fill it better as long as the search for
them is within the limit. -/
structure FillsBest (limit room : Nat) (items : List Item) (mask : List Bool) : Prop where
  within : exactSize (chosen items mask) ≤ room
  best : min room (exactSize items) ≤ limit →
    ∀ n, SubsetSum (items.map (·.size)) n → n ≤ room → n ≤ exactSize (chosen items mask)

namespace FillsBest

variable {limit room : Nat} {items : List Item}

theorem chosen_all {α : Type} (xs : List α) : chosen xs (List.replicate xs.length true) = xs := by
  induction xs with
  | nil => rfl
  | cons x xs ih => rw [List.length_cons, List.replicate_succ, chosen_take, ih]

theorem chosen_none {α : Type} (xs : List α) : chosen xs (List.replicate xs.length false) = [] := by
  induction xs with
  | nil => rfl
  | cons x xs ih => rw [List.length_cons, List.replicate_succ, chosen_leave, ih]

theorem all (fits : exactSize items ≤ room) :
    FillsBest limit room items (List.replicate items.length true) where
  within := by rw [chosen_all items]; exact fits
  best := by
    rintro _ n ⟨part, sub, rfl⟩ _
    rw [chosen_all items]
    exact exactSum_le_of_sublist sub

theorem none (full : room = 0) :
    FillsBest limit room items (List.replicate items.length false) where
  within := by rw [chosen_none items]; exact Nat.zero_le room
  best := by
    intro _ n _ within
    omega

theorem ofBestSubset {mask : List Bool}
    (within : exactSum (chosen (items.map (·.size)) mask) ≤ room)
    (best : ∀ n, SubsetSum (items.map (·.size)) n → n ≤ room →
      n ≤ exactSum (chosen (items.map (·.size)) mask)) :
    FillsBest limit room items mask := by
  rw [chosen_map] at within best
  exact ⟨within, fun _ => best⟩

theorem ofFirstFit (large : limit < min room (exactSize items)) :
    FillsBest limit room items (firstFit (items.map (·.size)) room) := by
  have within := chosen_firstFit_le (items.map (·.size)) room
  rw [chosen_map] at within
  exact ⟨within, fun small => absurd small (Nat.not_le.mpr large)⟩

end FillsBest

/-- The mask for a room: all items if they fit, else the best subset as long as the search for it is
within the limit, and what fits in order otherwise. -/
def fillMask (limit room : Nat) (items : List Item) : List Bool :=
  let sizes := items.map (·.size)
  let wanted := min room (exactSize items)
  if wanted = exactSize items then List.replicate items.length true
  else if wanted = 0 then List.replicate items.length false
  else if wanted ≤ limit then (bestSubset sizes wanted).toOption.getD []
  else firstFit sizes wanted

theorem fillsBest_fillMask (limit room : Nat) (items : List Item) :
    FillsBest limit room items (fillMask limit room items) := by
  unfold fillMask
  dsimp only
  by_cases all : min room (exactSize items) = exactSize items
  · rw [if_pos all]
    exact .all (by omega)
  · rw [if_neg all]
    have wanted : min room (exactSize items) = room := by omega
    rw [wanted]
    split
    · rename_i full
      exact .none full
    · split
      · obtain ⟨mask, found, within, best⟩ := exists_bestSubset (items.map (·.size)) room
        rw [found]
        exact .ofBestSubset within best
      · exact .ofFirstFit (by omega)

namespace Arm

variable {w : Width} {limit capacity : Nat} {zone : Alignment} {arm : Arm}

/-- The pending fields that must go into the zone. -/
def mandatory (zone : Alignment) (arm : Arm) : List Item := arm.pending.filter (·.align == zone)

/-- The pending fields that may go into the zone, largest class first. -/
def optional (zone : Alignment) (arm : Arm) : List Item :=
  largestFirst (arm.pending.filter (·.align != zone))

/-- No pending field is of a class above the zone's. -/
def Below (zone : Alignment) (arm : Arm) : Prop := ∀ item ∈ arm.pending, item.align ≤ zone

theorem mandatory_append_optional_perm (zone : Alignment) (arm : Arm) :
    (arm.mandatory zone ++ arm.optional zone).Perm arm.pending :=
  (List.Perm.append_left _ (largestFirst_perm _)).trans (List.filter_append_perm _ _)

theorem exactSize_pending (zone : Alignment) (arm : Arm) :
    exactSize arm.pending = exactSize (arm.mandatory zone) + exactSize (arm.optional zone) := by
  rw [← exactSize_append]
  exact (exactSize_perm (mandatory_append_optional_perm zone arm)).symm

theorem mem_mandatory {item : Item} :
    item ∈ arm.mandatory zone ↔ item ∈ arm.pending ∧ item.align = zone := by
  rw [mandatory, List.mem_filter, beq_iff_eq]

theorem mem_optional {item : Item} :
    item ∈ arm.optional zone ↔ item ∈ arm.pending ∧ item.align ≠ zone := by
  rw [optional, (largestFirst_perm _).mem_iff, List.mem_filter, bne_iff_ne]

theorem not_lt_of_below (below : arm.Below zone) :
    (arm.pending.find? fun item => decide (zone < item.align)) = none := by
  refine List.find?_eq_none.mpr fun item member => ?_
  rw [decide_eq_true_eq]
  exact Nat.not_lt.mpr (below item member)

/-- The smaller fields that an arm takes into a zone. -/
def taken (limit : Nat) (zone : Alignment) (capacity : Nat) (arm : Arm) : List Bool :=
  fillMask limit (capacity - exactSize (arm.mandatory zone)) (arm.optional zone)

/-- What an arm places in a zone, for a choice among the optional fields. -/
def picked (zone : Alignment) (mask : List Bool) (arm : Arm) : List Item :=
  arm.mandatory zone ++ chosen (arm.optional zone) mask

/-- The mandatory fields with their positions. -/
def mandatoryAt (zone : Alignment) (arm : Arm) : List (Nat × Item) :=
  arm.unplaced.filter (·.2.align == zone)

/-- The optional fields with their positions. -/
def optionalAt (zone : Alignment) (arm : Arm) : List (Nat × Item) :=
  byClass (·.2.align) (arm.unplaced.filter (·.2.align != zone))

/-- What an arm places in a zone, each field with its position. -/
def picks (zone : Alignment) (mask : List Bool) (arm : Arm) : List (Nat × Item) :=
  arm.mandatoryAt zone ++ chosen (arm.optionalAt zone) mask

/-- The arm without what it places in a zone. -/
def left (zone : Alignment) (mask : List Bool) (arm : Arm) : Arm :=
  { arm with fields := gapsAt ((arm.picks zone mask).map (·.1)) arm.fields }

/-- The stack of what an arm places in a zone. -/
def pile (zone : Alignment) (mask : List Bool) (arm : Arm) : Stack :=
  ⟨exactSize (arm.picked zone mask), (backToBack 0 (arm.picked zone mask)).reverse⟩

/-! ### What is picked -/

theorem mandatoryAt_append_optionalAt_perm (zone : Alignment) (arm : Arm) :
    (arm.mandatoryAt zone ++ arm.optionalAt zone).Perm arm.unplaced :=
  (List.Perm.append_left _ (byClass_perm _ _)).trans (List.filter_append_perm _ _)

theorem mem_optionalAt {pick : Nat × Item} :
    pick ∈ arm.optionalAt zone ↔ pick ∈ arm.unplaced ∧ pick.2.align ≠ zone := by
  rw [optionalAt, (byClass_perm _ _).mem_iff, List.mem_filter, bne_iff_ne]

theorem map_mandatoryAt (zone : Alignment) (arm : Arm) :
    (arm.mandatoryAt zone).map (·.2) = arm.mandatory zone := by
  rw [mandatory, ← map_unplaced, List.filter_map]
  rfl

theorem map_optionalAt (zone : Alignment) (arm : Arm) :
    (arm.optionalAt zone).map (·.2) = arm.optional zone := by
  rw [optional, ← map_unplaced, List.filter_map, largestFirst]
  exact map_byClass Item.align Prod.snd _

theorem map_picks (zone : Alignment) (mask : List Bool) (arm : Arm) :
    (arm.picks zone mask).map (·.2) = arm.picked zone mask := by
  rw [picks, picked, List.map_append, map_mandatoryAt, ← chosen_map, map_optionalAt]

theorem picks_of_zone (zone : Alignment) (mask : List Bool) (arm : Arm) :
    Picks arm.fields (arm.picks zone mask) := by
  apply picks_of_subperm
  exact ((chosen_sublist _ mask).append_left _).subperm.trans
    (arm.mandatoryAt_append_optionalAt_perm zone).subperm

/-- Every pending field is picked or stays. -/
theorem picked_append_left_perm (zone : Alignment) (mask : List Bool) (arm : Arm) :
    (arm.picked zone mask ++ (arm.left zone mask).pending).Perm arm.pending := by
  rw [← map_picks]
  exact gapsAt_perm (arm.picks_of_zone zone mask)

theorem left_sublist (zone : Alignment) (mask : List Bool) (arm : Arm) :
    (arm.left zone mask).pending.Sublist arm.pending :=
  gapsAt_sublist (arm.picks_of_zone zone mask)

/-- The fields that stay are the optional ones that were not chosen. -/
theorem chosen_append_left_perm (zone : Alignment) (mask : List Bool) (arm : Arm) :
    (chosen (arm.optional zone) mask ++ (arm.left zone mask).pending).Perm (arm.optional zone) := by
  have split := (arm.picked_append_left_perm zone mask).trans
    (arm.mandatory_append_optional_perm zone).symm
  rw [picked, List.append_assoc] at split
  exact (List.perm_append_left_iff _).mp split

theorem descending_picked (below : arm.Below zone) (mask : List Bool) :
    Descending (arm.picked zone mask) := by
  refine List.pairwise_append.mpr ⟨?_, ?_, ?_⟩
  · apply List.pairwise_of_forall_mem_list
    intro x hx y hy
    rw [(mem_mandatory.mp hx).2, (mem_mandatory.mp hy).2]
    exact zone.le_refl
  · exact (descending_largestFirst _).sublist (chosen_sublist _ mask)
  · intro x hx y hy
    have member := (mem_optional.mp ((chosen_sublist _ mask).mem hy)).1
    rw [(mem_mandatory.mp hx).2]
    exact below y member

/-! ### Selecting -/

/-- The sizes that an arm works with fit if all of its fields together do. -/
theorem totals_bind {α : Type} (w : Width) (zone : Alignment) (arm : Arm)
    (next : Nat → Nat → Nat → Except Failure α) :
    (do
      let least ← orOverflow (totalSize? w (arm.mandatory zone))
      let spare ← orOverflow (totalSize? w (arm.optional zone))
      let available ← orOverflow (w.checked (least + spare))
      next least spare available) =
    orOverflow (w.checked (exactSize arm.pending)) >>= next (exactSize (arm.mandatory zone))
      (exactSize (arm.optional zone)) := by
  have split := arm.exactSize_pending zone
  by_cases fits : w.Fits (exactSize arm.pending)
  · rw [totalSize?_eq_some.mpr ⟨fits.mono (by omega), rfl⟩,
      totalSize?_eq_some.mpr ⟨fits.mono (by omega), rfl⟩, split]
    rfl
  · have overflows := Width.checked_eq_none.mpr fits
    rw [overflows]
    cases least : totalSize? w (arm.mandatory zone) with
    | none => rfl
    | some m =>
      cases spare : totalSize? w (arm.optional zone) with
      | none => rfl
      | some s =>
        obtain ⟨_, rfl⟩ := totalSize?_eq_some.mp least
        obtain ⟨_, rfl⟩ := totalSize?_eq_some.mp spare
        show orOverflow (w.checked _) >>= _ = _
        rw [← split, overflows]

/-- Whether an arm can fill a zone: it missed no larger one, and its fields fit together. -/
def ready (w : Width) (zone : Alignment) (arm : Arm) : Except Failure Unit :=
  match arm.pending.find? fun item => zone < item.align with
  | some missed => .error (.fault (.fieldMissedZone arm.index missed.align))
  | none => (fun _ => ()) <$> orOverflow (w.checked (exactSize arm.pending))

theorem ready_of_below (below : arm.Below zone) :
    arm.ready w zone = (fun _ => ()) <$> orOverflow (w.checked (exactSize arm.pending)) := by
  unfold ready
  rw [not_lt_of_below below]

theorem ready_eq_ok (below : arm.Below zone) (fits : w.Fits (exactSize arm.pending)) :
    arm.ready w zone = .ok () := by
  rw [ready_of_below below, Width.checked_eq_some.mpr ⟨fits, rfl⟩]
  rfl

theorem fits_of_ready (ready : arm.ready w zone = .ok ()) : w.Fits (exactSize arm.pending) := by
  unfold Arm.ready at ready
  split at ready
  · contradiction
  · cases checked : w.checked (exactSize arm.pending) with
    | none =>
      rw [checked] at ready
      contradiction
    | some n => exact (Width.checked_eq_some.mp checked).1

/-- An arm that is ready picks its fields by the mask. -/
theorem select_eq (w : Width) (limit : Nat) (zone : Alignment) (capacity : Nat) (arm : Arm) :
    arm.select w limit zone capacity =
      (fun _ => (arm.picks zone (arm.taken limit zone capacity)).map (·.1)) <$>
        arm.ready w zone := by
  unfold select ready
  cases arm.pending.find? fun item => zone < item.align with
  | some missed => rfl
  | none =>
    simp only [← mandatoryAt.eq_1, ← optionalAt.eq_1, map_mandatoryAt, map_optionalAt]
    refine (totals_bind w zone arm _).trans ?_
    cases checked : w.checked (exactSize arm.pending) with
    | none => rfl
    | some available =>
      obtain ⟨_, rfl⟩ := Width.checked_eq_some.mp checked
      rw [arm.exactSize_pending zone]
      have wanted (m s : Nat) : min (max capacity m) (m + s) - m = min (capacity - m) s := by omega
      have sizes : (arm.optionalAt zone).map (·.2.size) = (arm.optional zone).map (·.size) := by
        rw [← map_optionalAt, List.map_map]
        rfl
      have count : (arm.optional zone).length = (arm.optionalAt zone).length := by
        rw [← map_optionalAt, List.length_map]
      unfold picks taken fillMask
      simp only [wanted, sizes, count, orOverflow_some, bind, Except.bind, Functor.map, Except.map]
      split
      · rw [FillsBest.chosen_all]
        rfl
      · split
        · rw [FillsBest.chosen_none, List.append_nil]
          rfl
        · split
          · obtain ⟨mask, found, _⟩ := exists_bestSubset ((arm.optional zone).map (·.size))
              (min (capacity - exactSize (arm.mandatory zone)) (exactSize (arm.optional zone)))
            rw [found]
            rfl
          · rfl

/-- The choice of an arm whose fields fit. -/
theorem exists_select (limit capacity : Nat) (below : arm.Below zone)
    (fits : w.Fits (exactSize arm.pending)) :
    ∃ mask, FillsBest limit (capacity - exactSize (arm.mandatory zone)) (arm.optional zone) mask ∧
      arm.select w limit zone capacity = .ok ((arm.picks zone mask).map (·.1)) := by
  refine ⟨_, fillsBest_fillMask limit _ _, ?_⟩
  rw [select_eq, ready_eq_ok below fits]
  rfl

/-! ### Filling -/

/-- An arm that is ready places what it picks. -/
theorem fill_eq (w : Width) (limit : Nat) (zone : Alignment) (capacity : Nat) (arm : Arm) :
    arm.fill w limit zone capacity =
      (fun _ => (arm.left zone (arm.taken limit zone capacity),
        arm.pile zone (arm.taken limit zone capacity))) <$> arm.ready w zone := by
  unfold fill
  rw [select_eq]
  cases ready : arm.ready w zone with
  | error e => rfl
  | ok _ =>
    have split := exactSize_perm (arm.picked_append_left_perm zone (arm.taken limit zone capacity))
    rw [exactSize_append] at split
    have stacked : Stack.of? w (arm.picked zone (arm.taken limit zone capacity)) =
        some (arm.pile zone (arm.taken limit zone capacity)) :=
      Stack.of?_eq_some.mpr ⟨(fits_of_ready ready).mono (by omega), rfl⟩
    have placed := foldlM_place w arm.index {}
      (arm.picks_of_zone zone (arm.taken limit zone capacity))
    rw [map_picks, ← Stack.of?.eq_1, stacked] at placed
    simp only [Functor.map, Except.map, bind, Except.bind, placed, orOverflow_some]
    rfl

theorem eq_of_fill {r : Arm × Stack} (filled : arm.fill w limit zone capacity = .ok r) :
    r = (arm.left zone (arm.taken limit zone capacity),
      arm.pile zone (arm.taken limit zone capacity)) := by
  rw [fill_eq] at filled
  cases ready : arm.ready w zone with
  | error e =>
    rw [ready] at filled
    contradiction
  | ok _ =>
    rw [ready] at filled
    exact (Except.ok.inj filled).symm

/-- An arm whose fields fit fills the zone with the fields of the class and the best choice among
the others. -/
theorem exists_fill (limit capacity : Nat) (below : arm.Below zone)
    (fits : w.Fits (exactSize arm.pending)) :
    ∃ mask, FillsBest limit (capacity - exactSize (arm.mandatory zone)) (arm.optional zone) mask ∧
      arm.fill w limit zone capacity = .ok (arm.left zone mask, arm.pile zone mask) := by
  refine ⟨_, fillsBest_fillMask limit _ _, ?_⟩
  rw [fill_eq, ready_eq_ok below fits]
  rfl

theorem fill_of_not_fits (below : arm.Below zone) (large : ¬w.Fits (exactSize arm.pending)) :
    arm.fill w limit zone capacity = .error .overflow := by
  rw [fill_eq, ready_of_below below, Width.checked_eq_none.mpr large]
  rfl

theorem items_pile (zone : Alignment) (mask : List Bool) (arm : Arm) :
    (arm.pile zone mask).items = arm.picked zone mask := by
  rw [pile, Stack.items, List.map_reverse, List.reverse_reverse, map_snd_backToBack]

/-- Every field of an arm was placed in the zone or stays, and the arm is otherwise the same. -/
structure Filled (zone : Alignment) (before after : Arm) (stack : Stack) : Prop where
  same : after = { before with fields := after.fields }
  perm : (stack.items ++ after.pending).Perm before.pending
  rest : ∀ item ∈ after.pending, item.align ≠ zone
  below : ∀ item ∈ stack.items, item.align ≤ zone
  ordered : Descending stack.items
  compact : stack.Compact

theorem ensures_fill (below : arm.Below zone) :
    Ensures (· = .overflow) (fun r => arm.Filled zone r.1 r.2)
      (arm.fill w limit zone capacity) := by
  by_cases fits : w.Fits (exactSize arm.pending)
  · obtain ⟨mask, _, filled⟩ := exists_fill limit capacity below fits
    rw [filled]
    have split := arm.picked_append_left_perm zone mask
    have items := arm.items_pile zone mask
    refine ⟨rfl, items ▸ split, fun item stays => ?_, fun item placed => ?_,
      items ▸ descending_picked below mask, ?_⟩
    · have member := (arm.chosen_append_left_perm zone mask).mem_iff.mp
        (List.mem_append_right _ stays)
      exact (mem_optional.mp member).2
    · rw [items] at placed
      exact below item (split.mem_iff.mp (List.mem_append_left _ placed))
    · exact ⟨by rw [items, pile, List.reverse_reverse], by rw [items, pile]⟩
  · rw [fill_of_not_fits below fits]
    exact rfl

namespace Filled

variable {before after : Arm} {stack : Stack}

theorem mem_of_mem_items (h : Filled zone before after stack) {item : Item}
    (placed : item ∈ stack.items) : item ∈ before.pending :=
  h.perm.mem_iff.mp (List.mem_append_left _ placed)

theorem mem_of_mem_pending (h : Filled zone before after stack) {item : Item}
    (stays : item ∈ after.pending) : item ∈ before.pending :=
  h.perm.mem_iff.mp (List.mem_append_right _ stays)

end Filled

end Arm

namespace ZoneStep

variable {w : Width} {limit start boundary : Nat} {zone : Alignment} {arms : List Arm}

section Largest

variable {α : Type} {f : α → Nat} {xs : List α} {m bound : Nat}

theorem le_foldl_max (ns : List Nat) (m : Nat) : m ≤ ns.foldl max m := by
  induction ns generalizing m with
  | nil => exact Nat.le_refl m
  | cons k ns ih => exact Nat.le_trans (Nat.le_max_left m k) (ih (max m k))

theorem le_foldl_max_map {x : α} (member : x ∈ xs) : f x ≤ (xs.map f).foldl max m := by
  induction xs generalizing m with
  | nil => exact absurd member List.not_mem_nil
  | cons y xs ih =>
    obtain rfl | later := List.mem_cons.mp member
    · exact Nat.le_trans (Nat.le_max_right m (f x)) (le_foldl_max _ _)
    · exact ih later

theorem foldl_max_map_le (start : m ≤ bound) (each : ∀ x ∈ xs, f x ≤ bound) :
    (xs.map f).foldl max m ≤ bound := by
  induction xs generalizing m with
  | nil => exact start
  | cons x xs ih =>
    have ⟨first, later⟩ := List.forall_mem_cons.mp each
    exact ih (Nat.max_le.mpr ⟨start, first⟩) later

end Largest

theorem height_le_highest {armStacks : List Stack} {stack : Stack} (h : stack ∈ armStacks) :
    stack.height ≤ highest armStacks :=
  le_foldl_max_map h

theorem highest_le {armStacks : List Stack} {bound : Nat}
    (each : ∀ stack ∈ armStacks, stack.height ≤ bound) : highest armStacks ≤ bound :=
  foldl_max_map_le (Nat.zero_le bound) each

theorem fill_eq_ok {step : ZoneStep} : fill w limit zone start boundary arms = .ok step ↔
    ∃ results size stop,
      List.Forall₂ (fun arm r => arm.fill w limit zone (boundary - start) = .ok r) arms results ∧
      zone.roundUp? w (highest (results.map (·.2))) = some size ∧
      w.checked (start + size) = some stop ∧
      step = ⟨zone, start, boundary - start, arms, results.map (·.1), results.map (·.2), size,
        stop⟩ := by
  have orOverflow_eq_ok {n : Nat} {m : Option Nat} : orOverflow m = .ok n ↔ m = some n := by
    cases m <;> simp [orOverflow]
  unfold fill
  simp only [bind_eq_ok, mapM_eq_ok, orOverflow_eq_ok]
  constructor
  · rintro ⟨results, filled, size, rounded, stop, checked, done⟩
    exact ⟨results, size, stop, filled, rounded, checked, (Except.ok.inj done).symm⟩
  · rintro ⟨results, size, stop, filled, rounded, checked, rfl⟩
    exact ⟨results, filled, size, rounded, stop, checked, rfl⟩

/-- Every arm filled the zone, and the zone is as large as the highest of their stacks needs. -/
structure Sound (w : Width) (step : ZoneStep) : Prop where
  filled : ∃ results : List (Arm × Stack), step.after = results.map (·.1) ∧
    step.armStacks = results.map (·.2) ∧
    List.Forall₂ (fun before r => Arm.Filled step.zone before r.1 r.2) step.before results
  size_dvd : step.zone.bytes ∣ step.size
  height_le : ∀ stack ∈ step.armStacks, stack.height ≤ step.size
  least : ∀ n, (∀ stack ∈ step.armStacks, stack.height ≤ n) → step.zone.bytes ∣ n → step.size ≤ n
  stop_eq : step.stop = step.start + step.size
  fits : w.Fits step.stop

/-- Filling a zone for arms with no field of a larger class left is sound, or overflows. -/
theorem ensures_fillZone (below : ∀ arm ∈ arms, arm.Below zone) :
    Ensures (· = .overflow)
      (fun step => step.Sound w ∧ step.zone = zone ∧ step.start = start ∧ step.before = arms)
      (ZoneStep.fill w limit zone start boundary arms) := by
  unfold ZoneStep.fill
  refine (Ensures.mapM fun arm member => Arm.ensures_fill (below arm member)).bind
    fun results filled => ?_
  apply (ensures_orOverflow _).bind
  intro size rounded
  apply (ensures_orOverflow _).bind
  intro stop checked
  obtain ⟨above, whole, _, least⟩ := Alignment.roundUp?_spec rounded
  obtain ⟨fits, rfl⟩ := Width.checked_eq_some.mp checked
  refine ⟨⟨⟨results, rfl, rfl, filled⟩, whole, fun stack member => ?_, fun n each dvd => ?_, rfl,
    fits⟩, rfl, rfl, rfl⟩
  · exact Nat.le_trans (height_le_highest member) above
  · exact least n (highest_le each) dvd

end ZoneStep

end PackedLayout
