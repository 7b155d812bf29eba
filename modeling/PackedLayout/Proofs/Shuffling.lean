import PackedLayout.Proofs.Completeness
import PackedLayout.Proofs.Framing
import PackedLayout.Proofs.StorageWords

/-!
# Arms in another order

How a variant is resolved depends neither on the order of its arms nor on the numbers of their
leaves. Every step comes to the same for the arms in another order:

- `Shuffled`: arms in another order, under other numbers;
- `ZoneStep.fill_shuffled`, `exactBoundary?_shuffled`: one zone, and the boundary found for it;
- `ZonePlan.search_shuffled`, `Storage.place_shuffled`: the plan and the storage;
- `Resolution.ofArms_shuffled`: the resolution.
-/

namespace PackedLayout

/-- All slots and all packs are one. -/
def Renaming.blank : Renaming := ⟨fun _ => 0, fun _ => ⟨0⟩⟩

/-- An arm without its position and without the numbers of its leaves. -/
def Arm.blank (arm : Arm) : Arm := { arm.rename .blank with index := 0 }

/-- Arms in another order, under other numbers. -/
def Shuffled (arms arms' : List Arm) : Prop := (arms.map Arm.blank).Perm (arms'.map Arm.blank)

/-- A step without the arms. -/
def ZoneStep.outline (step : ZoneStep) : ZoneStep :=
  { step with before := [], after := [], armStacks := [] }

/-- A plan without its steps. -/
def ZonePlan.outline (plan : ZonePlan) : ZonePlan := { plan with steps := [] }

variable {w : Width} {limit total capacity start boundary lo : Nat} {zone : Alignment}
  {arm : Arm} {arms arms' : List Arm}

/-! ## One arm -/

theorem toOption_map {ε α β : Type} (g : α → β) (run : Except ε α) :
    (g <$> run).toOption = run.toOption.map g := by
  cases run <;> rfl

namespace Arm

/-- Only errors tell the position of an arm. -/
theorem toOption_fill_reindex (index : Nat) :
    (({ arm with index } : Arm).fill w limit zone capacity).toOption =
      (arm.fill w limit zone capacity).toOption.map
        (Prod.map (fun next => { next with index }) id) := by
  have ready : (({ arm with index } : Arm).ready w zone).toOption =
      (arm.ready w zone).toOption := by
    unfold Arm.ready Arm.pending
    dsimp only
    cases (arm.fields.filterMap id).find? fun item => zone < item.align <;> rfl
  rw [fill_eq, fill_eq, toOption_map, toOption_map, ready, Option.map_map]
  rfl

/-- The blank arm fills a zone as the arm does. -/
theorem toOption_fill_blank : (arm.blank.fill w limit zone capacity).toOption =
    (arm.fill w limit zone capacity).toOption.map (Prod.map blank (Stack.rename .blank)) := by
  unfold blank
  rw [toOption_fill_reindex, fill_rename, toOption_map, Option.map_map]
  rfl

end Arm

theorem Arm.pending_blank (arm : Arm) :
    arm.blank.pending = arm.pending.map (Item.rename .blank) := pending_rename arm

theorem Arm.required_of_blank {arm' : Arm} (same : arm.blank = arm'.blank) :
    arm.required = arm'.required := by
  have blanks := congrArg Arm.required same
  exact blanks

namespace Shuffled

theorem symm (h : Shuffled arms arms') : Shuffled arms' arms := List.Perm.symm h

/-- Arms that are shuffled are the same but for their numbers. -/
theorem exists_blank (h : Shuffled arms arms') (member : arm ∈ arms) :
    ∃ arm' ∈ arms', arm'.blank = arm.blank :=
  List.mem_map.mp (h.mem_iff.mp (List.mem_map_of_mem member))

/-- What does not depend on numbers is found for the same arms, in some order. -/
theorem map {α : Type} (h : Shuffled arms arms') {g : Arm → α}
    (blank : ∀ arm, g arm.blank = g arm) : (arms.map g).Perm (arms'.map g) := by
  have perm := List.Perm.map g h
  rw [List.map_map, List.map_map] at perm
  rwa [List.map_congr_left fun arm _ => show (g ∘ Arm.blank) arm = g arm from blank arm,
    List.map_congr_left fun arm _ => show (g ∘ Arm.blank) arm = g arm from blank arm] at perm

theorem of_perm (perm : arms.Perm arms') : Shuffled arms arms' := perm.map _

theorem trans {arms'' : List Arm} (h : Shuffled arms arms') (h' : Shuffled arms' arms'') :
    Shuffled arms arms'' := List.Perm.trans h h'

end Shuffled

/-! ## One zone -/

theorem Arm.fields_fill {r : Arm × Stack} (filled : arm.fill w limit zone capacity = .ok r) :
    r.1 = { arm with fields := r.1.fields } := by
  rw [eq_of_fill filled]
  rfl

namespace ZoneStep

theorem forall₂_fill_blank {results : List (Arm × Stack)}
    (filled : List.Forall₂ (fun arm r => arm.fill w limit zone capacity = .ok r) arms results) :
    List.Forall₂ (fun arm r => (arm.fill w limit zone capacity).toOption = some r)
      (arms.map Arm.blank) (results.map (Prod.map Arm.blank (Stack.rename .blank))) := by
  rw [List.forall₂_map_left_iff, List.forall₂_map_right_iff]
  refine filled.imp fun arm r own => ?_
  rw [Arm.toOption_fill_blank, own]
  rfl

/-- Shuffled arms fill a zone with the same stacks, under other numbers. -/
theorem exists_results {results : List (Arm × Stack)} (h : Shuffled arms arms')
    (filled : List.Forall₂ (fun arm r => arm.fill w limit zone capacity = .ok r) arms results) :
    ∃ results', List.Forall₂ (fun arm r => arm.fill w limit zone capacity = .ok r) arms' results' ∧
      (results.map (Prod.map Arm.blank (Stack.rename .blank))).Perm
        (results'.map (Prod.map Arm.blank (Stack.rename .blank))) := by
  obtain ⟨blanks, each, perm⟩ :=
    List.perm_comp_forall₂ (List.Perm.symm h) (forall₂_fill_blank filled)
  have found : ∀ arm ∈ arms', ∃ r, arm.fill w limit zone capacity = .ok r := by
    intro arm member
    obtain ⟨blank, _, own⟩ := exists_right_of_mem each (List.mem_map_of_mem member)
    rw [Arm.toOption_fill_blank] at own
    cases filled : arm.fill w limit zone capacity with
    | error e =>
      rw [filled] at own
      contradiction
    | ok r => exact ⟨r, rfl⟩
  obtain ⟨results', filled'⟩ := exists_forall₂ found
  have same : results'.map (Prod.map Arm.blank (Stack.rename .blank)) = blanks :=
    List.right_unique_forall₂' (fun _ _ _ first second => Option.some.inj (first.symm.trans second))
      (forall₂_fill_blank filled') each
  exact ⟨results', filled', same ▸ perm.symm⟩

theorem highest_perm {piles piles' : List Stack}
    (perm : (piles.map (·.height)).Perm (piles'.map (·.height))) :
    highest piles = highest piles' := perm.foldl_eq 0

/-- Shuffled arms fill a zone alike. -/
theorem fill_shuffled {step : ZoneStep} (h : Shuffled arms arms')
    (filled : fill w limit zone start boundary arms = .ok step) :
    ∃ step', fill w limit zone start boundary arms' = .ok step' ∧
      step'.outline = step.outline ∧ Shuffled step.after step'.after := by
  obtain ⟨results, size, stop, each, rounded, checked, rfl⟩ := fill_eq_ok.mp filled
  obtain ⟨results', each', perm⟩ := exists_results h each
  have same : highest (results.map (·.2)) = highest (results'.map (·.2)) := by
    apply highest_perm
    have heights := perm.map fun r => r.2.height
    rw [List.map_map, List.map_map] at heights ⊢
    exact heights
  refine ⟨_, fill_eq_ok.mpr ⟨results', size, stop, each', same ▸ rounded, checked, rfl⟩, rfl, ?_⟩
  have after := perm.map (·.1)
  rw [List.map_map, List.map_map] at after
  unfold Shuffled
  rw [List.map_map, List.map_map]
  exact after

theorem largestArmFirst_after {step : ZoneStep} (sizes : LargestArmFirst arms)
    (filled : fill w limit zone start boundary arms = .ok step) : LargestArmFirst step.after := by
  obtain ⟨results, size, stop, each, rounded, checked, rfl⟩ := fill_eq_ok.mp filled
  refine pairwise_of_forall₂ (r := fun (arm next : Arm) => next.required = arm.required)
    (fun a b c d le first second => by omega) ?_ sizes
  rw [List.forall₂_map_right_iff]
  exact each.imp fun arm r own => congrArg Arm.required (Arm.fields_fill own)

/-- A zone ends on a whole number of units. -/
theorem dvd_stop {step : ZoneStep} (aligned : zone.bytes ∣ start)
    (filled : fill w limit zone start boundary arms = .ok step) : zone.bytes ∣ step.stop := by
  obtain ⟨results, size, stop, each, rounded, checked, rfl⟩ := fill_eq_ok.mp filled
  obtain ⟨_, whole, _⟩ := Alignment.roundUp?_spec rounded
  obtain ⟨_, rfl⟩ := Width.checked_eq_some.mp checked
  exact Nat.dvd_add aligned whole

end ZoneStep

/-! ## Plans -/

theorem Arm.pendingBytes_blank (test : Alignment → Bool) (arm : Arm) :
    arm.blank.pendingBytes w test = arm.pendingBytes w test := pendingBytes_rename test arm

theorem Arm.zoneSums_blank (zone : Alignment) (arm : Arm) :
    arm.blank.zoneSums w zone = arm.zoneSums w zone := zoneSums_rename zone arm

namespace ZonePlan

/-- A boundary that is found for some arms is found for them in another order, or a greater one. -/
theorem exactBoundary?_le (h : Shuffled arms arms') (sizes : LargestArmFirst arms)
    (sizes' : LargestArmFirst arms') (aligned : zone.bytes ∣ start) (start_le : start ≤ lo)
    (found : exactBoundary? w zone start lo arms = some boundary) :
    ∃ boundary', exactBoundary? w zone start lo arms' = some boundary' ∧ boundary ≤ boundary' := by
  obtain ⟨above, whole, ⟨arm, member, reach⟩, each⟩ :=
    exactBoundary?_sound aligned start_le sizes found
  have each' : ∀ arm' ∈ arms', boundary ≤ arm'.required →
      (arm'.zoneSums w zone).contains (boundary - start) = true := by
    intro arm' member' reach'
    obtain ⟨arm, member, same⟩ := h.symm.exists_blank member'
    rw [← Arm.zoneSums_blank, ← same, Arm.zoneSums_blank]
    exact each arm member (Arm.required_of_blank same ▸ reach')
  obtain ⟨other, listed, same⟩ := h.exists_blank member
  have required : other.required = arm.required := Arm.required_of_blank same
  cases arms' with
  | nil => contradiction
  | cons largest rest =>
    have most : other.required ≤ largest.required := by
      obtain rfl | later := List.mem_cons.mp listed
      · exact Nat.le_refl _
      · exact (List.pairwise_cons.mp sizes').1 other later
    exact exists_exactBoundary? aligned start_le above whole (by omega) each'

/-- The boundary that is found does not depend on the order of arms of one size. -/
theorem exactBoundary?_shuffled (h : Shuffled arms arms') (sizes : LargestArmFirst arms)
    (sizes' : LargestArmFirst arms') (aligned : zone.bytes ∣ start) (start_le : start ≤ lo) :
    exactBoundary? w zone start lo arms' = exactBoundary? w zone start lo arms := by
  cases found : exactBoundary? w zone start lo arms with
  | some boundary =>
    obtain ⟨boundary', found', le⟩ := exactBoundary?_le h sizes sizes' aligned start_le found
    obtain ⟨again, found'', le'⟩ := exactBoundary?_le h.symm sizes' sizes aligned start_le found'
    rw [found] at found''
    cases found''
    rw [found', Nat.le_antisymm le le']
  | none =>
    cases found' : exactBoundary? w zone start lo arms' with
    | none => rfl
    | some boundary' =>
      obtain ⟨_, found'', _⟩ := exactBoundary?_le h.symm sizes' sizes aligned start_le found'
      rw [found] at found''
      contradiction

/-- Two plans under way, for arms in two orders. -/
structure Progress.Shuffled (zones : List Alignment) (p p' : Progress) : Prop where
  ordered : zones.Pairwise fun a b => b < a
  arms : PackedLayout.Shuffled p.arms p'.arms
  sizes : LargestArmFirst p.arms
  sizes' : LargestArmFirst p'.arms
  aligned : ∀ zone ∈ zones, zone.bytes ∣ p.reached
  reached : p'.reached = p.reached
  plan : p'.plan.outline = p.plan.outline

namespace Progress.Shuffled

variable {zones : List Alignment} {p p' next : Progress}

theorem needs (h : Shuffled zones p p') : p'.needs w zone = p.needs w zone := by
  have perm := h.arms.map (g := fun arm => (arm.counts, arm.required)) fun _ => rfl
  have any := perm.any_eq (f := fun size =>
    decide (0 < size.1.bytes w zone) && decide (p.reached < size.2))
  rw [List.any_map, List.any_map] at any
  unfold Progress.needs
  rw [h.reached]
  exact any.symm

theorem leastEnd? (h : Shuffled zones p p') : p'.leastEnd? w zone = p.leastEnd? w zone := by
  have perm := h.arms.map (Arm.pendingBytes_blank (w := w) (zone ≤ ·))
  unfold Progress.leastEnd?
  rw [h.reached, perm.foldl_eq 0]

/-- The zones that are closed next are alike. -/
theorem close (h : Shuffled (zone :: zones) p p')
    (closed : p.close w limit zone boundary = .ok next) :
    ∃ next', p'.close w limit zone boundary = .ok next' ∧ Shuffled zones next next' := by
  obtain ⟨step, filled, rfl⟩ := close_eq_ok.mp closed
  obtain ⟨step', filled', same, after⟩ := ZoneStep.fill_shuffled h.arms filled
  rw [← h.reached] at filled'
  have stop : step'.outline.stop = step.outline.stop := congrArg ZoneStep.stop same
  obtain ⟨smaller, ordered⟩ := List.pairwise_cons.mp h.ordered
  refine ⟨_, close_eq_ok.mpr ⟨step', filled', rfl⟩, ordered, after,
    ZoneStep.largestArmFirst_after h.sizes filled, ZoneStep.largestArmFirst_after h.sizes' filled',
    fun other later => ?_, stop, ?_⟩
  · have divides := Alignment.bytes_dvd_of_le (Alignment.le_of_lt (smaller other later))
    exact Nat.dvd_trans divides (ZoneStep.dvd_stop (h.aligned zone List.mem_cons_self) filled)
  · exact congrArg (fun plan : ZonePlan => { plan with
      boundaries := plan.boundaries.setBoundary zone boundary }) h.plan

/-- A class without an exact boundary is noted in both. -/
theorem degrade (h : Shuffled zones p p') (zone : Alignment) (fallback : Nat) :
    Shuffled zones { p with plan := p.plan.degrade zone fallback }
      { p' with plan := p'.plan.degrade zone fallback } where
  ordered := h.ordered
  arms := h.arms
  sizes := h.sizes
  sizes' := h.sizes'
  aligned := h.aligned
  reached := h.reached
  plan := by
    have noted (plan : ZonePlan) :
        (plan.degrade zone fallback).outline = plan.outline.degrade zone fallback := by
      unfold ZonePlan.degrade
      rw [apply_ite ZonePlan.outline]
      rfl
    dsimp only
    rw [noted, noted, h.plan]

end Progress.Shuffled

/-- The plan for arms in another order is the same but for the steps on the way. -/
theorem search_shuffled {zones : List Alignment} {p p' : Progress} {plan : ZonePlan}
    (h : p.Shuffled zones p') (run : search w limit total zones p = .ok plan) :
    ∃ plan', search w limit total zones p' = .ok plan' ∧ plan'.outline = plan.outline := by
  induction zones generalizing p p' with
  | nil =>
    cases run
    refine ⟨_, rfl, ?_⟩
    rw [h.reached]
    exact congrArg (fun plan : ZonePlan => { plan with
      boundaries := plan.boundaries.setBoundary .one
        (max (max total p.reached) (plan.boundaries.boundary .two)) }) h.plan
  | cons zone rest ih =>
    have closes {p p' : Progress} {boundary : Nat} (h : p.Shuffled (zone :: rest) p')
        (run : (p.close w limit zone boundary >>= search w limit total rest) = .ok plan) :
        ∃ plan', (p'.close w limit zone boundary >>= search w limit total rest) = .ok plan' ∧
          plan'.outline = plan.outline := by
      obtain ⟨next, closed, run⟩ := bind_eq_ok.mp run
      obtain ⟨next', closed', further⟩ := h.close closed
      obtain ⟨plan', run', same⟩ := ih further run
      exact ⟨plan', bind_eq_ok.mpr ⟨next', closed', run'⟩, same⟩
    have aligned := h.aligned zone List.mem_cons_self
    unfold search at run ⊢
    rw [h.needs, h.leastEnd?]
    split at run
    · rename_i needed
      rw [if_pos needed]
      obtain ⟨least, known, run⟩ := bind_eq_ok.mp run
      have start_le := leastEnd?_eq_some ((ensures_orOverflow _).of_ok known)
      have skipped : p'.plan.outline.skipped = p.plan.outline.skipped :=
        congrArg ZonePlan.skipped h.plan
      have alike : (if p'.plan.skipped = true then none else
          exactBoundary? w zone p'.reached least p'.arms) =
            if p.plan.skipped = true then none else
              exactBoundary? w zone p.reached least p.arms := by
        dsimp only [outline] at skipped
        rw [skipped, h.reached, exactBoundary?_shuffled h.arms h.sizes h.sizes' aligned start_le]
      simp only [known, alike, bind, Except.bind] at run ⊢
      cases exact : if p.plan.skipped = true then none else
          exactBoundary? w zone p.reached least p.arms with
      | some boundary =>
        simp only [exact] at run ⊢
        split at run
        · rename_i early
          cases run
          rw [if_pos early]
          exact ⟨_, rfl, congrArg (fun plan : ZonePlan => { plan with
            boundaries := plan.boundaries.endFrom zone boundary }) h.plan⟩
        · rename_i later
          rw [if_neg later]
          exact closes h run
      | none =>
        simp only [exact] at run ⊢
        exact closes (h.degrade zone least) run
    · rename_i unneeded
      rw [if_neg unneeded, h.reached]
      exact closes h run

/-- Shuffled arms have the same sizes when they are in order of size. -/
theorem required_shuffled (h : Shuffled arms arms') (sizes : LargestArmFirst arms)
    (sizes' : LargestArmFirst arms') :
    arms'.map (·.required) = arms.map (·.required) := by
  have perm : (arms'.map (·.required)).Perm (arms.map (·.required)) :=
    h.symm.map fun _ => rfl
  have falls' : (arms'.map (·.required)).Pairwise fun a b => b ≤ a := List.pairwise_map.mpr sizes'
  have falls : (arms.map (·.required)).Pairwise fun a b => b ≤ a := List.pairwise_map.mpr sizes
  exact perm.eq_of_pairwise (fun _ _ _ _ le ge => Nat.le_antisymm ge le) falls' falls

theorem ofArms_shuffled {plan : ZonePlan} (h : Shuffled arms arms') (sizes : LargestArmFirst arms)
    (sizes' : LargestArmFirst arms') (planned : ofArms w limit arms = .ok plan) :
    ∃ plan', ofArms w limit arms' = .ok plan' ∧ plan'.outline = plan.outline := by
  have required := required_shuffled h sizes sizes'
  cases arms with
  | nil =>
    cases List.map_eq_nil_iff.mp required
    exact ⟨plan, planned, rfl⟩
  | cons largest rest =>
    obtain ⟨largest', rest', rfl, same, _⟩ := List.map_eq_cons_iff.mp required
    have start : Progress.Shuffled [.eight, .four, .two]
        ⟨largest :: rest, 0, { skipped := limit < largest.required }⟩
        ⟨largest' :: rest', 0, { skipped := limit < largest.required }⟩ :=
      ⟨by decide, h, sizes, sizes', fun _ _ => Nat.dvd_zero _, rfl, rfl⟩
    dsimp only [ofArms] at planned ⊢
    rw [same]
    exact search_shuffled start planned

end ZonePlan

/-! ## Storages -/

namespace Storage

variable {s s' after last : Storage} {target : Boundaries}

/-- Two storages under way, for arms in two orders. -/
structure Shuffled (s s' : Storage) : Prop where
  arms : PackedLayout.Shuffled s.arms s'.arms
  start : s'.start = s.start
  steps : s'.steps.map ZoneStep.outline = s.steps.map ZoneStep.outline
  ends : s'.ends = s.ends

theorem placeZone_shuffled (h : s.Shuffled s')
    (placed : s.placeZone w limit target zone = .ok after) :
    ∃ after', s'.placeZone w limit target zone = .ok after' ∧ after.Shuffled after' := by
  obtain ⟨aligned, step, filled, rfl⟩ := placeZone_eq_ok.mp placed
  obtain ⟨step', filled', same, arms⟩ := ZoneStep.fill_shuffled h.arms filled
  rw [← h.start] at filled' aligned
  have stop : step'.outline.stop = step.outline.stop := congrArg ZoneStep.stop same
  refine ⟨_, placeZone_eq_ok.mpr ⟨aligned, step', filled', rfl⟩, arms, stop, ?_, ?_⟩
  · rw [List.map_append, List.map_append, h.steps]
    exact congrArg (fun step => _ ++ [step]) same
  · dsimp only [ZoneStep.outline] at stop
    rw [h.ends, stop]

theorem placeZones_shuffled {zones : List Alignment} (h : s.Shuffled s')
    (placed : zones.foldlM (placeZone w limit target) s = .ok last) :
    ∃ last', zones.foldlM (placeZone w limit target) s' = .ok last' ∧ last.Shuffled last' := by
  induction zones generalizing s s' with
  | nil =>
    cases placed
    exact ⟨s', rfl, h⟩
  | cons zone rest ih =>
    rw [List.foldlM_cons, bind_eq_ok] at placed
    obtain ⟨after, first, placed⟩ := placed
    obtain ⟨after', first', further⟩ := placeZone_shuffled h first
    obtain ⟨last', placed', same⟩ := ih further placed
    exact ⟨last', bind_eq_ok.mpr ⟨after', first', placed'⟩, same⟩

/-- The storage of arms in another order has the same zones but for the leaves in them. -/
theorem place_shuffled (h : PackedLayout.Shuffled arms arms')
    (placed : place w limit target arms = .ok s) :
    ∃ s', place w limit target arms' = .ok s' ∧ s.Shuffled s' := by
  have start : Shuffled { arms } { arms := arms' } := ⟨h, rfl, rfl, rfl⟩
  obtain ⟨s', run, same⟩ := placeZones_shuffled start (placeZones_of_place placed)
  have exhausted := ((ensures_place w limit target arms).of_ok placed).exhausted
  have none : s'.arms.find? (fun arm => !arm.pending.isEmpty) = none := by
    refine List.find?_eq_none.mpr fun arm' member => ?_
    obtain ⟨arm, listed, blank⟩ := same.arms.symm.exists_blank member
    have left : arm'.pending.map (Item.rename .blank) = [] := by
      rw [← Arm.pending_blank, ← blank, Arm.pending_blank, exhausted arm listed]
      rfl
    simp [List.map_eq_nil_iff.mp left]
  refine ⟨s', bind_eq_ok.mpr ⟨s', run, ?_⟩, same⟩
  rw [none]
  rfl

/-- The zones of a storage and the room there was in each. -/
def rooms (s : Storage) : List (Alignment × Nat) :=
  s.steps.map fun step => (step.zone, step.capacity)

theorem Shuffled.rooms (h : s.Shuffled s') : s'.rooms = s.rooms := by
  have same := congrArg (List.map fun step : ZoneStep => (step.zone, step.capacity)) h.steps
  rwa [List.map_map, List.map_map] at same

theorem Shuffled.size_zone (h : s.Shuffled s') (a : Alignment) :
    (s'.zone w a).size = (s.zone w a).size := by
  have size (s : Storage) : (s.zone w a).size =
      (((s.steps.map ZoneStep.outline).find? (·.zone == a)).map (·.size)).getD 0 := by
    rw [List.find?_map, Option.map_map, zone]
    show _ = ((s.steps.find? (·.zone == a)).map _).getD 0
    cases s.steps.find? (·.zone == a) <;> rfl
  rw [size, size, h.steps]

end Storage

/-! ## Resolutions -/

namespace Resolution

/-- Two resolutions, for arms in two orders. -/
structure Shuffled (r r' : Resolution) : Prop where
  required : r'.required = r.required
  target : r'.target = r.target
  degradations : r'.degradations = r.degradations
  storage : r.storage.Shuffled r'.storage

/-- Arms in another order are resolved alike. -/
theorem ofArms_shuffled {r : Resolution} (h : PackedLayout.Shuffled arms arms')
    (resolved : ofArms w limit arms = .ok r) :
    ∃ r', ofArms w limit arms' = .ok r' ∧ r.Shuffled r' := by
  obtain ⟨plan, planned, resolved⟩ := bind_eq_ok.mp resolved
  obtain ⟨storage, placed, resolved⟩ := bind_eq_ok.mp resolved
  cases resolved
  have sorted : PackedLayout.Shuffled (byRequirement arms) (byRequirement arms') :=
    ((PackedLayout.Shuffled.of_perm (byRequirement_perm arms)).trans h).trans
      (.of_perm (byRequirement_perm arms').symm)
  have sizes := largestArmFirst_byRequirement arms
  have sizes' := largestArmFirst_byRequirement arms'
  have required := ZonePlan.required_shuffled sorted sizes sizes'
  obtain ⟨plan', planned', same⟩ := ZonePlan.ofArms_shuffled sorted sizes sizes' planned
  obtain ⟨storage', placed', alike⟩ := Storage.place_shuffled sorted placed
  have largest : (byRequirement arms').head?.map (·.required) =
      (byRequirement arms).head?.map (·.required) := by
    rw [← List.head?_map, ← List.head?_map, required]
  have target : plan'.outline.boundaries = plan.outline.boundaries :=
    congrArg ZonePlan.boundaries same
  have noted (required : Nat) : plan'.outline.degradations limit required =
      plan.outline.degradations limit required := by rw [same]
  have outline (required : Nat) (plan : ZonePlan) :
      plan.outline.degradations limit required = plan.degradations limit required := rfl
  dsimp only [ZonePlan.outline] at target
  rw [← target] at placed'
  refine ⟨_, bind_eq_ok.mpr ⟨plan', planned', bind_eq_ok.mpr ⟨storage', placed', rfl⟩⟩,
    congrArg (·.getD 0) largest, target, ?_, alike⟩
  dsimp only [Storage.padding]
  rw [largest, ← outline, noted, outline, alike.ends]

namespace Shuffled

variable {r r' : Resolution}

theorem layout (h : r.Shuffled r') : r'.layout = r.layout := h.storage.ends

theorem isPerfect (h : r.Shuffled r') : r'.isPerfect = r.isPerfect :=
  congrArg List.isEmpty h.degradations

end Shuffled

end Resolution

end PackedLayout
