import PackedLayout.Proofs.Filling
import PackedLayout.Variant.Resolution

/-!
# Every field is placed

Placing the fields of some arms zone by zone puts every field into exactly one zone, and meets no
fault for any targets:

- `Arm.Within`: the pending fields of an arm have classes among the zones still to fill, so no
  field misses its zone and none is left at the end;
- `Fills`: the steps that fill some zones, and what they lead to;
- `ensures_place`: the storage of any arms is sound, or overflows;
- `ensures_plan`, `ensures_resolution`: so do the plan, and the resolution of a variant.
-/

namespace PackedLayout

namespace Arm

variable {zone : Alignment} {zones : List Alignment} {arm : Arm}

/-- Every pending field has one of the classes given. -/
def Within (zones : List Alignment) (arm : Arm) : Prop := ∀ item ∈ arm.pending, item.align ∈ zones

theorem within_descending (arm : Arm) : arm.Within Alignment.descending :=
  fun item _ => item.align.mem_descending

theorem Within.below (ordered : (zone :: zones).Pairwise fun a b => b < a)
    (within : arm.Within (zone :: zones)) : arm.Below zone := by
  intro item member
  obtain here | later := List.mem_cons.mp (within item member)
  · rw [here]
    exact zone.le_refl
  · exact Alignment.le_of_lt ((List.pairwise_cons.mp ordered).1 _ later)

theorem Filled.within {after : Arm} {stack : Stack} (filled : arm.Filled zone after stack)
    (within : arm.Within (zone :: zones)) : after.Within zones := by
  intro item stays
  obtain here | later := List.mem_cons.mp (within item (filled.mem_of_mem_pending stays))
  · exact absurd here (filled.rest item stays)
  · exact later

theorem pending_eq_nil (within : arm.Within []) : arm.pending = [] :=
  List.eq_nil_iff_forall_not_mem.mpr fun item member =>
    List.not_mem_nil (within item member)

end Arm

theorem filled_perm {zone : Alignment} {before : List Arm} {results : List (Arm × Stack)}
    (filled : List.Forall₂ (fun arm r => Arm.Filled zone arm r.1 r.2) before results) :
    ((results.map (·.2)).flatMap Stack.items ++ (results.map (·.1)).flatMap (·.pending)).Perm
      (before.flatMap (·.pending)) := by
  induction filled with
  | nil => exact List.Perm.refl _
  | @cons arm r before results first _ ih =>
    simp only [List.map_cons, List.flatMap_cons]
    refine List.Perm.trans ?_ (first.perm.append ih)
    rw [List.append_assoc, List.append_assoc]
    refine List.Perm.append_left _ ?_
    rw [← List.append_assoc, ← List.append_assoc]
    exact List.Perm.append_right _ List.perm_append_comm

/-- The items of all stacks of a step. -/
def ZoneStep.items (step : ZoneStep) : List Item := step.armStacks.flatMap Stack.items

namespace Storage

variable {w : Width} {limit : Nat} {target : Boundaries} {arms : List Arm} {zone : Alignment}
  {zones : List Alignment} {s after last : Storage} {steps : List ZoneStep}

/-! ## Steps -/

/-- A zone that is placed is filled from where it starts, on whole units of its class. -/
theorem placeZone_eq_ok : s.placeZone w limit target zone = .ok after ↔
    zone.bytes ∣ s.start ∧ ∃ step,
      ZoneStep.fill w limit zone s.start (target.boundary zone) s.arms = .ok step ∧
        after = ⟨step.after, step.stop, s.steps ++ [step], s.ends.setBoundary zone step.stop⟩ := by
  unfold placeZone
  by_cases aligned : zone.isAligned s.start = true
  · rw [if_pos aligned, bind_eq_ok]
    constructor
    · rintro ⟨step, filled, done⟩
      exact ⟨Alignment.isAligned_iff.mp aligned, step, filled, (Except.ok.inj done).symm⟩
    · rintro ⟨_, step, filled, rfl⟩
      exact ⟨step, filled, rfl⟩
  · rw [if_neg aligned]
    exact ⟨nofun, fun placed => absurd (Alignment.isAligned_iff.mpr placed.1) aligned⟩

theorem placeZones_of_place (placed : place w limit target arms = .ok last) :
    Alignment.descending.foldlM (placeZone w limit target) { arms } = .ok last := by
  unfold place at placed
  obtain ⟨s, run, placed⟩ := bind_eq_ok.mp placed
  split at placed
  · contradiction
  · exact run.trans placed

/-- Filling some zones, one after the other, takes some steps from one storage to another. -/
inductive Fills (w : Width) (limit : Nat) (target : Boundaries) :
    List Alignment → Storage → List ZoneStep → Storage → Prop
  | nil (s : Storage) : Fills w limit target [] s [] s
  | cons {zone : Alignment} {zones : List Alignment} {s last : Storage} {step : ZoneStep}
      {steps : List ZoneStep}
      (filled : ZoneStep.fill w limit zone s.start (target.boundary zone) s.arms = .ok step)
      (others : Fills w limit target zones
        ⟨step.after, step.stop, s.steps ++ [step], s.ends.setBoundary zone step.stop⟩ steps last) :
      Fills w limit target (zone :: zones) s (step :: steps) last

theorem fills_of_placeZones (placed : zones.foldlM (placeZone w limit target) s = .ok last) :
    ∃ steps, Fills w limit target zones s steps last := by
  induction zones generalizing s with
  | nil =>
    cases placed
    exact ⟨[], .nil _⟩
  | cons zone rest ih =>
    rw [List.foldlM_cons, bind_eq_ok] at placed
    obtain ⟨after, first, placed⟩ := placed
    obtain ⟨_, step, filled, rfl⟩ := placeZone_eq_ok.mp first
    obtain ⟨steps, others⟩ := ih placed
    exact ⟨step :: steps, .cons filled others⟩

theorem Fills.steps_eq (fills : Fills w limit target zones s steps last) :
    last.steps = s.steps ++ steps := by
  induction fills with
  | nil => exact (List.append_nil _).symm
  | cons _ _ ih =>
    rw [ih, List.append_assoc]
    rfl

/-- There is one step for each zone. -/
theorem Fills.zones_eq (fills : Fills w limit target zones s steps last) :
    steps.map (·.zone) = zones := by
  induction fills with
  | nil => rfl
  | cons filled _ ih =>
    obtain ⟨_, _, _, _, _, _, rfl⟩ := ZoneStep.fill_eq_ok.mp filled
    rw [List.map_cons, ih]

/-- The steps of a storage are those that filled its zones. -/
theorem fills_of_start (placed : zones.foldlM (placeZone w limit target) { arms } = .ok last) :
    Fills w limit target zones { arms } last.steps last := by
  obtain ⟨steps, fills⟩ := fills_of_placeZones placed
  have all := fills.steps_eq
  rw [List.nil_append] at all
  rwa [all]

/-! ## What placing keeps -/

/-- Every stack of the step holds fields of the arm in its place. -/
def FromArms (arms : List Arm) (step : ZoneStep) : Prop :=
  List.Forall₂ (fun arm stack => ∀ item ∈ stack.items, item ∈ arm.pending) arms step.armStacks

/-- A storage under way, with some zones still to fill. -/
structure Placing (w : Width) (arms : List Arm) (zones : List Alignment) (s : Storage) :
    Prop where
  order : s.steps.map (·.zone) ++ zones = Alignment.descending
  aligned : ∀ zone ∈ zones, zone.bytes ∣ s.start
  steps : ∀ step ∈ s.steps, step.Sound w ∧ FromArms arms step
  left : List.Forall₂ (fun arm now => now.Within zones ∧ ∀ item ∈ now.pending, item ∈ arm.pending)
    arms s.arms
  perm : (s.steps.flatMap ZoneStep.items ++ s.arms.flatMap (·.pending)).Perm
    (arms.flatMap (·.pending))

theorem Placing.start (w : Width) (arms : List Arm) :
    Placing w arms Alignment.descending { arms } where
  order := rfl
  aligned := fun _ _ => Nat.dvd_zero _
  steps := fun _ h => absurd h List.not_mem_nil
  left := List.forall₂_same.mpr fun arm _ => ⟨arm.within_descending, fun _ h => h⟩
  perm := List.Perm.refl _

theorem Placing.ordered (h : Placing w arms zones s) :
    zones.Pairwise fun a b => b < a := by
  have all : Alignment.descending.Pairwise fun a b => b < a := by decide
  rw [← h.order] at all
  exact (List.pairwise_append.mp all).2.1

theorem Placing.below (h : Placing w arms (zone :: zones) s) : ∀ now ∈ s.arms, now.Below zone := by
  intro now member
  obtain ⟨_, _, within, _⟩ := exists_left_of_mem h.left member
  exact within.below h.ordered

/-- Filling the next zone keeps the storage under way sound. -/
theorem ensures_placeZone (h : Placing w arms (zone :: zones) s) :
    Ensures (· = .overflow) (Placing w arms zones) (placeZone w limit target s zone) := by
  have aligned := h.aligned zone List.mem_cons_self
  unfold placeZone
  rw [if_pos (Alignment.isAligned_iff.mpr aligned)]
  refine (ZoneStep.ensures_fillZone h.below).bind fun step ⟨sound, here, began, before⟩ => ?_
  obtain ⟨results, after, piles, filled⟩ := sound.filled
  rw [here, before] at filled
  have each := forall₂_trans (t := fun arm (r : Arm × Stack) =>
      (r.1.Within zones ∧ ∀ item ∈ r.1.pending, item ∈ arm.pending) ∧
        ∀ item ∈ r.2.items, item ∈ arm.pending)
    (fun arm now r ⟨within, own⟩ fill => ⟨⟨fill.within within,
      fun item stays => own item (fill.mem_of_mem_pending stays)⟩,
      fun item placed => own item (fill.mem_of_mem_items placed)⟩) h.left filled
  refine ⟨?_, fun next member => ?_, fun other member => ?_, ?_, ?_⟩
  · simp only [List.map_append, List.map_cons, List.map_nil, here, List.append_assoc,
      List.singleton_append, h.order]
  · have smaller := (List.pairwise_cons.mp h.ordered).1 next member
    have divides := Alignment.bytes_dvd_of_le (Alignment.le_of_lt smaller)
    show next.bytes ∣ step.stop
    rw [sound.stop_eq, began]
    exact Nat.dvd_add (Nat.dvd_trans divides aligned)
      (Nat.dvd_trans divides (here ▸ sound.size_dvd))
  · obtain earlier | last := List.mem_append.mp member
    · exact h.steps other earlier
    · rw [List.mem_singleton.mp last]
      refine ⟨sound, ?_⟩
      rw [FromArms, piles, List.forall₂_map_right_iff]
      exact each.imp fun _ _ both => both.2
  · show List.Forall₂ _ arms step.after
    rw [after, List.forall₂_map_right_iff]
    exact each.imp fun _ _ both => both.1
  · show ((s.steps ++ [step]).flatMap ZoneStep.items ++ step.after.flatMap (·.pending)).Perm _
    rw [List.flatMap_append, List.append_assoc]
    refine (List.Perm.append_left _ ?_).trans h.perm
    rw [List.flatMap_singleton, ZoneStep.items, piles, after]
    exact filled_perm filled

theorem Placing.fill {step : ZoneStep} (h : Placing w arms (zone :: zones) s)
    (filled : ZoneStep.fill w limit zone s.start (target.boundary zone) s.arms = .ok step) :
    Placing w arms zones
      ⟨step.after, step.stop, s.steps ++ [step], s.ends.setBoundary zone step.stop⟩ :=
  (ensures_placeZone h).of_ok
    (placeZone_eq_ok.mpr ⟨h.aligned zone List.mem_cons_self, step, filled, rfl⟩)

/-- All zones are filled, each field of each arm lies in exactly one of them, and no arm has a
field left. -/
structure Sound (w : Width) (arms : List Arm) (s : Storage) : Prop where
  zones : s.steps.map (·.zone) = Alignment.descending
  steps : ∀ step ∈ s.steps, step.Sound w ∧ FromArms arms step
  perm : (s.steps.flatMap ZoneStep.items).Perm (arms.flatMap (·.pending))
  exhausted : ∀ arm ∈ s.arms, arm.pending = []

/-- Placing the fields of any arms, as far as any targets, is sound or overflows. -/
theorem ensures_place (w : Width) (limit : Nat) (target : Boundaries) (arms : List Arm) :
    Ensures (· = .overflow) (Sound w arms) (place w limit target arms) := by
  unfold place
  refine (Ensures.foldlM (Placing w arms) (fun zone zones s h => ensures_placeZone h)
    (Placing.start w arms)).bind fun s h => ?_
  have exhausted : ∀ arm ∈ s.arms, arm.pending = [] := by
    intro now member
    obtain ⟨_, _, within, _⟩ := exists_left_of_mem h.left member
    exact Arm.pending_eq_nil within
  have none : s.arms.find? (fun arm => !arm.pending.isEmpty) = none :=
    List.find?_eq_none.mpr fun arm member => by simp [exhausted arm member]
  rw [none]
  refine ⟨?_, h.steps, ?_, exhausted⟩
  · have order := h.order
    rwa [List.append_nil] at order
  · have perm := h.perm
    rwa [List.flatMap_eq_nil_iff.mpr exhausted, List.append_nil] at perm

end Storage

namespace ZonePlan

variable {w : Width} {limit total : Nat}

theorem ensures_close {zone : Alignment} {zones : List Alignment} {boundary : Nat} {p : Progress}
    (ordered : (zone :: zones).Pairwise fun a b => b < a)
    (within : ∀ arm ∈ p.arms, arm.Within (zone :: zones)) :
    Ensures (· = .overflow) (fun next => ∀ arm ∈ next.arms, arm.Within zones)
      (p.close w limit zone boundary) := by
  unfold Progress.close
  refine (ZoneStep.ensures_fillZone fun arm member => (within arm member).below ordered).bind
    fun step ⟨sound, here, _, before⟩ => ?_
  obtain ⟨results, after, _, filled⟩ := sound.filled
  rw [here, before] at filled
  intro arm member
  change arm ∈ step.after at member
  rw [after] at member
  obtain ⟨r, listed, rfl⟩ := List.mem_map.mp member
  obtain ⟨before, there, own⟩ := exists_left_of_mem filled listed
  exact own.within (within before there)

/-- The search for boundaries meets no fault. -/
theorem ensures_search {zones : List Alignment} {p : Progress}
    (ordered : (zones ++ [Alignment.one]).Pairwise fun a b => b < a)
    (within : ∀ arm ∈ p.arms, arm.Within (zones ++ [.one])) :
    Ensures (· = .overflow) (fun _ => True) (search w limit total zones p) := by
  induction zones generalizing p with
  | nil => exact trivial
  | cons zone rest ih =>
    have later := (List.pairwise_cons.mp ordered).2
    have closed (boundary : Nat) (q : Progress) (same : q.arms = p.arms) :
        Ensures (· = Failure.overflow) (fun _ => True)
          (q.close w limit zone boundary >>= search w limit total rest) :=
      (ensures_close (p := q) ordered (same ▸ within)).bind fun next within => ih later within
    unfold search
    split
    · apply (ensures_orOverflow _).bind
      intro least _
      dsimp only
      split
      · split
        · exact trivial
        · exact closed _ p rfl
      · exact closed _ _ rfl
    · exact closed _ p rfl

/-- Planning the zones of any arms gives a plan or overflows. -/
theorem ensures_plan (w : Width) (limit : Nat) (arms : List Arm) :
    Ensures (· = .overflow) (fun _ => True) (ofArms w limit arms) := by
  unfold ofArms
  split
  · exact trivial
  · exact ensures_search (by decide) fun arm _ => arm.within_descending

end ZonePlan

theorem byRequirement_perm (arms : List Arm) : (byRequirement arms).Perm arms :=
  List.mergeSort_perm arms _

/-- The resolution of any arms has a sound storage, or overflows. -/
theorem ensures_resolution (w : Width) (limit : Nat) (arms : List Arm) :
    Ensures (· = .overflow) (fun r => r.storage.Sound w (byRequirement arms))
      (Resolution.ofArms w limit arms) := by
  unfold Resolution.ofArms
  apply (ZonePlan.ensures_plan w limit _).bind
  intro plan _
  exact (Storage.ensures_place w limit _ _).bind fun storage sound => sound

end PackedLayout
