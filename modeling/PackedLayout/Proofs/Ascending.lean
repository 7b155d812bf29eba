import PackedLayout.Proofs.StorageWords

/-!
# Boundaries in order

The zones of a variant follow one another: where one begins is never behind where it ends, neither
in the storage nor in the plan for it.

- `Boundaries.Ascending`, `Boundaries.Rises`: boundaries in order, all of them or those set so far;
- `Storage.ensures_place_ascending`: the zones of a storage are in order;
- `ZonePlan.ascending_ofArms`: so are those of a plan, since a zone gets at least as large as was
  planned;
- `Resolution.ascending_ofArms`: so are both for a variant.
-/

namespace PackedLayout

variable {w : Width} {limit total start stop : Nat} {zone : Alignment} {arms : List Arm}
  {rest zones : List Alignment}

namespace Alignment

theorem larger?_spec {larger : Alignment} (h : zone.larger? = some larger) : zone < larger := by
  cases zone <;> cases h <;> decide

end Alignment

namespace Boundaries

variable {b : Boundaries} {reached next : Nat}

/-- No zone begins behind its end. -/
def Ascending (b : Boundaries) : Prop := ∀ zone, b.zoneStart zone ≤ b.boundary zone

/-- The boundaries of the classes other than `zones` are set, and are in order up to `reached`. -/
structure Rises (zones : List Alignment) (reached : Nat) (b : Boundaries) : Prop where
  ascending : ∀ a ∉ zones, b.zoneStart a ≤ b.boundary a
  below : ∀ a ∉ zones, b.boundary a ≤ reached

theorem rises_zero : zero.Rises Alignment.descending 0 :=
  ⟨fun a fresh => absurd a.mem_descending fresh, fun a fresh => absurd a.mem_descending fresh⟩

theorem Rises.done (h : b.Rises [] reached) : b.Ascending :=
  fun a => h.ascending a List.not_mem_nil

/-- The next zone is set to an end behind the ones before. -/
theorem Rises.set (h : b.Rises (zone :: rest) reached)
    (zones : ∀ a, a ∈ zone :: rest ↔ a ≤ zone) (above : reached ≤ stop) (le : stop ≤ next) :
    (b.setBoundary zone stop).Rises rest next := by
  have start_le {a : Alignment} (unset : zone ≤ a) :
      (b.setBoundary zone stop).zoneStart a = b.zoneStart a := by
    unfold zoneStart
    cases larger : a.larger? with
    | none => rfl
    | some l =>
      have lt := Alignment.larger?_spec larger
      have differ : zone ≠ l := fun same => Nat.not_lt.mpr unset (same ▸ lt)
      exact (boundary_setBoundary _ _ _ _).trans (if_neg differ)
  have smaller {a : Alignment} (fresh : a ∉ rest) (differ : zone ≠ a) : a ∉ zone :: rest :=
    List.not_mem_cons_of_ne_of_not_mem (Ne.symm differ) fresh
  have unset {a : Alignment} (fresh : a ∉ zone :: rest) : zone ≤ a :=
    Nat.le_of_not_le fun le => fresh ((zones a).mpr le)
  constructor
  · intro a fresh
    rw [boundary_setBoundary]
    split
    · rename_i same
      subst same
      rw [start_le zone.le_refl]
      refine Nat.le_trans ?_ above
      unfold zoneStart
      cases larger : zone.larger? with
      | none => exact Nat.zero_le _
      | some l =>
        have lt := Alignment.larger?_spec larger
        exact h.below l fun member => Nat.not_lt.mpr ((zones l).mp member) lt
    · rename_i differ
      rw [start_le (unset (smaller fresh differ))]
      exact h.ascending a (smaller fresh differ)
  · intro a fresh
    rw [boundary_setBoundary]
    split
    · exact le
    · rename_i differ
      exact Nat.le_trans (h.below a (smaller fresh differ)) (Nat.le_trans above le)

/-- All zones that are left end at one place. -/
theorem Rises.endFrom (h : b.Rises (zone :: rest) reached)
    (zones : ∀ a, a ∈ zone :: rest ↔ a ≤ zone) (above : reached ≤ stop) :
    (b.endFrom zone stop).Ascending := by
  have le (l : Alignment) : (b.endFrom zone stop).boundary l ≤ stop := by
    rw [boundary_endFrom]
    split
    · exact Nat.le_refl stop
    · rename_i larger
      exact Nat.le_trans (h.below l fun member => larger ((zones l).mp member)) above
  intro a
  by_cases left : a ≤ zone
  · rw [boundary_endFrom _ _ a, if_pos left]
    unfold zoneStart
    cases a.larger? with
    | none => exact Nat.zero_le _
    | some l => exact le l
  · have kept := h.ascending a fun member => left ((zones a).mp member)
    rw [boundary_endFrom _ _ a, if_neg left]
    unfold zoneStart at kept ⊢
    cases larger : a.larger? with
    | none => exact Nat.zero_le _
    | some l =>
      have beyond : ¬l ≤ zone := fun within =>
        left (Nat.le_trans (Nat.le_of_lt (Alignment.larger?_spec larger)) within)
      rw [larger] at kept
      dsimp only at kept ⊢
      rwa [boundary_endFrom, if_neg beyond]

end Boundaries

/-! ## Placing -/

namespace Storage

variable {s last : Storage} {target : Boundaries}

/-- Filling the next zone keeps the ends in order. -/
theorem ensures_placeZone_rises (placing : Placing w arms (zone :: zones) s)
    (rises : s.ends.Rises (zone :: zones) s.start) :
    Ensures (· = .overflow) (fun after => Placing w arms zones after ∧
      after.ends.Rises zones after.start) (s.placeZone w limit target zone) := by
  cases placed : s.placeZone w limit target zone with
  | error e => exact (ensures_placeZone placing).of_error placed
  | ok after =>
    refine ⟨(ensures_placeZone placing).of_ok placed, ?_⟩
    have above := (placeZone_room placing placed).1
    obtain ⟨_, step, filled, rfl⟩ := placeZone_eq_ok.mp placed
    exact rises.set (fun _ => Alignment.mem_iff_le_of_order placing.order) above (Nat.le_refl _)

/-- The zones of a storage are in order. -/
theorem ensures_place_ascending (w : Width) (limit : Nat) (target : Boundaries)
    (arms : List Arm) :
    Ensures (· = .overflow) (·.ends.Ascending) (place w limit target arms) := by
  cases placed : place w limit target arms with
  | error e => exact (ensures_place w limit target arms).of_error placed
  | ok last =>
    have run : Ensures (· = Failure.overflow)
        (fun s => Placing w arms [] s ∧ s.ends.Rises [] s.start)
        (Alignment.descending.foldlM (placeZone w limit target) { arms }) :=
      Ensures.foldlM (fun zones s => Placing w arms zones s ∧ s.ends.Rises zones s.start)
        (fun zone rest s ⟨placing, rises⟩ => ensures_placeZone_rises placing rises)
        ⟨Placing.start w arms, Boundaries.rises_zero⟩
    exact (run.of_ok (placeZones_of_place placed)).2.done

end Storage

/-! ## Planning -/

namespace Arm

variable {arm after : Arm} {stack : Stack}

/-- An arm places all of its fields of the class. -/
theorem Filled.mandatory_le (filled : Filled zone arm after stack) :
    exactSize (arm.mandatory zone) ≤ stack.height := by
  have here : after.pending.filter (·.align == zone) = [] :=
    List.filter_eq_nil_iff.mpr fun item stays => by simpa using filled.rest item stays
  have placed := filled.perm.filter (·.align == zone)
  rw [List.filter_append, here, List.append_nil] at placed
  rw [mandatory, ← exactSize_perm placed, filled.compact.height]
  exact exactSum_le_of_sublist (List.filter_sublist.map _)

/-- An arm that can fill the room of a zone does. -/
theorem height_of_canFill {room : Nat} {r : Arm × Stack} (below : arm.Below zone)
    (fits : w.Fits (exactSize arm.pending)) (small : room ≤ limit) (canFill : arm.CanFill zone room)
    (filled : arm.fill w limit zone room = .ok r) : room ≤ r.2.height := by
  obtain ⟨mask, best, same⟩ := exists_fill limit room below fits
  obtain rfl := Except.ok.inj (same.symm.trans filled)
  obtain ⟨n, sum, exactly⟩ := canFill
  have least := best.best (by omega) n sum (by omega)
  show room ≤ exactSize (arm.picked zone mask)
  rw [picked, exactSize_append]
  omega

end Arm

/-- A zone ends above what each arm places in it. -/
theorem ZoneStep.height_le_stop {boundary : Nat} {step : ZoneStep} {arm : Arm}
    (below : ∀ arm ∈ arms, arm.Below zone)
    (filled : ZoneStep.fill w limit zone start boundary arms = .ok step) (member : arm ∈ arms) :
    ∃ r, arm.fill w limit zone (boundary - start) = .ok r ∧ start + r.2.height ≤ step.stop := by
  obtain ⟨sound, _, began, _⟩ := (ensures_fillZone below).of_ok filled
  obtain ⟨results, size, stop, each, _, _, rfl⟩ := fill_eq_ok.mp filled
  obtain ⟨r, listed, own⟩ := exists_right_of_mem each member
  refine ⟨r, own, ?_⟩
  have le := sound.height_le r.2 (List.mem_map_of_mem listed)
  rw [sound.stop_eq, began]
  exact Nat.add_le_add_left le start

namespace ZonePlan

variable {p next : Progress} {plan : ZonePlan} {boundary : Nat}

/-- A plan under way for some arms, with some zones still to plan. -/
structure Underway (w : Width) (limit total : Nat) (zones : List Alignment) (p : Progress) :
    Prop where
  order : ∃ done, done ++ zones = Alignment.descending
  aligned : ∀ zone ∈ zones, zone.bytes ∣ p.reached
  within : ∀ arm ∈ p.arms, arm.Within zones
  sizes : LargestArmFirst p.arms
  each : ∀ arm ∈ p.arms, exactSize arm.pending ≤ arm.required ∧ arm.required ≤ total
  fits : w.Fits total
  small : p.plan.skipped = false → total ≤ limit
  rises : p.plan.boundaries.Rises zones p.reached

namespace Underway

theorem ordered (h : Underway w limit total zones p) : zones.Pairwise fun a b => b < a := by
  have all : Alignment.descending.Pairwise fun a b => b < a := by decide
  obtain ⟨done, order⟩ := h.order
  rw [← order] at all
  exact (List.pairwise_append.mp all).2.1

theorem below (h : Underway w limit total (zone :: zones) p) : ∀ arm ∈ p.arms, arm.Below zone :=
  fun arm member => (h.within arm member).below h.ordered

theorem mem_iff_le (h : Underway w limit total (zone :: zones) p) (a : Alignment) :
    a ∈ zone :: zones ↔ a ≤ zone := by
  obtain ⟨done, order⟩ := h.order
  exact Alignment.mem_iff_le_of_order order

/-- A zone that is closed below where its fields end leaves the plan under way. -/
theorem close (h : Underway w limit total (zone :: zones) p) (above : p.reached ≤ boundary)
    (closed : p.close w limit zone boundary = .ok next) (le : boundary ≤ next.reached) :
    Underway w limit total zones next := by
  obtain ⟨step, filled, rfl⟩ := close_eq_ok.mp closed
  obtain ⟨sound, here, began, before⟩ := (ZoneStep.ensures_fillZone h.below).of_ok filled
  obtain ⟨results, after, _, each⟩ := sound.filled
  rw [here, before] at each
  obtain ⟨done, order⟩ := h.order
  -- every arm that is left comes from one that was there before
  have origin {arm : Arm} (member : arm ∈ step.after) :
      ∃ now ∈ p.arms, ∃ stack, now.Filled zone arm stack := by
    rw [after] at member
    obtain ⟨r, listed, rfl⟩ := List.mem_map.mp member
    obtain ⟨now, there, own⟩ := exists_left_of_mem each listed
    exact ⟨now, there, r.2, own⟩
  refine ⟨⟨done ++ [zone], by simpa using order⟩, fun other later => ?_, fun arm member => ?_, ?_,
    fun arm member => ?_, h.fits, h.small, ?_⟩
  · have smaller := (List.pairwise_cons.mp h.ordered).1 other later
    have divides := Alignment.bytes_dvd_of_le (Alignment.le_of_lt smaller)
    show other.bytes ∣ step.stop
    rw [sound.stop_eq, began]
    exact Nat.dvd_add (Nat.dvd_trans divides (h.aligned zone List.mem_cons_self))
      (Nat.dvd_trans divides (here ▸ sound.size_dvd))
  · obtain ⟨now, there, _, own⟩ := origin member
    exact own.within (h.within now there)
  · show LargestArmFirst step.after
    have same : p.arms.map (·.required) = step.after.map (·.required) := by
      rw [after, List.map_map]
      exact List.forall₂_eq_eq_eq ▸ (List.forall₂_map_left_iff.mpr
        (List.forall₂_map_right_iff.mpr
          (each.imp fun _ _ own => (congrArg (·.required) own.same).symm)))
    have sizes : (p.arms.map (·.required)).Pairwise (· ≥ ·) := List.pairwise_map.mpr h.sizes
    rw [same] at sizes
    exact List.pairwise_map.mp sizes
  · obtain ⟨now, there, stack, own⟩ := origin member
    have size := own.exactSize_eq
    have bounds := h.each now there
    have required : arm.required = now.required := by rw [own.same]
    rw [required]
    omega
  · exact h.rises.set h.mem_iff_le above le

theorem reached_le (h : Underway w limit total (zone :: zones) p)
    (closed : p.close w limit zone boundary = .ok next) : p.reached ≤ next.reached := by
  obtain ⟨step, filled, rfl⟩ := close_eq_ok.mp closed
  obtain ⟨sound, _, began, _⟩ := (ZoneStep.ensures_fillZone h.below).of_ok filled
  show p.reached ≤ step.stop
  rw [sound.stop_eq, began]
  exact Nat.le_add_right _ _

theorem degrade (h : Underway w limit total zones p) (zone : Alignment) (fallback : Nat) :
    Underway w limit total zones { p with plan := p.plan.degrade zone fallback } := by
  obtain ⟨skipped, _, boundaries⟩ := degrade_keeps zone fallback p.plan
  exact ⟨h.order, h.aligned, h.within, h.sizes, h.each, h.fits,
    fun searched => h.small (skipped.symm.trans searched), by rw [boundaries]; exact h.rises⟩

/-- A fallback is below where the fields of the class end. -/
theorem leastEnd_le (h : Underway w limit total (zone :: zones) p) {least : Nat}
    (known : p.leastEnd? w zone = some least)
    (closed : p.close w limit zone boundary = .ok next) : least ≤ next.reached := by
  obtain ⟨step, filled, rfl⟩ := close_eq_ok.mp closed
  obtain ⟨_, rfl⟩ := Width.checked_eq_some.mp known
  obtain ⟨sound, _, began, _⟩ := (ZoneStep.ensures_fillZone h.below).of_ok filled
  have each : (p.arms.map (Arm.pendingBytes w (zone ≤ ·))).foldl max 0 ≤ step.size := by
    refine ZoneStep.foldl_max_map_le (Nat.zero_le _) fun arm member => ?_
    obtain ⟨r, own, le⟩ := ZoneStep.height_le_stop h.below filled member
    have placed := ((Arm.ensures_fill (h.below arm member)).of_ok own).mandatory_le
    have bounds := h.each arm member
    rw [Arm.pendingBytes_eq (h.fits.mono (by omega)),
      Arm.filter_le_eq_mandatory (h.below arm member)]
    have stop := sound.stop_eq
    omega
  have stop := sound.stop_eq
  show p.reached + _ ≤ step.stop
  omega

/-- A boundary that the search finds is where the fields end, or below. -/
theorem exact_le (h : Underway w limit total (zone :: zones) p) {least : Nat}
    (start_le : p.reached ≤ least) (searched : p.plan.skipped = false)
    (found : exactBoundary? w zone p.reached least p.arms = some boundary)
    (closed : p.close w limit zone boundary = .ok next) : boundary ≤ next.reached := by
  obtain ⟨step, filled, rfl⟩ := close_eq_ok.mp closed
  obtain ⟨above, _, ⟨arm, member, reach⟩, each⟩ :=
    exactBoundary?_sound (h.aligned zone List.mem_cons_self) start_le h.sizes found
  have bounds := h.each arm member
  have fits : w.Fits (exactSize arm.pending) := h.fits.mono (by omega)
  have canFill : arm.CanFill zone (boundary - p.reached) :=
    Arm.contains_zoneSums (h.below arm member) fits (each arm member reach)
  obtain ⟨r, own, le⟩ := ZoneStep.height_le_stop h.below filled member
  have small := h.small searched
  have height := Arm.height_of_canFill (h.below arm member) fits (by omega) canFill own
  show boundary ≤ step.stop
  omega

end Underway

/-- A class of a search whose zone is closed: at a boundary that was found, at a fallback, or where
the last zone ended if the class is not needed. -/
structure Closes (w : Width) (limit : Nat) (zone : Alignment) (boundary : Nat) (p next : Progress)
    (step : ZoneStep) : Prop where
  filled : ZoneStep.fill w limit zone p.reached boundary p.arms = .ok step
  arms : next.arms = step.after
  reached : next.reached = step.stop
  boundaries : next.plan.boundaries = p.plan.boundaries.setBoundary zone boundary
  steps : next.plan.steps = p.plan.steps ++ [step]
  above : p.reached ≤ boundary
  within : boundary ≤ step.stop
  least : p.needs w zone = false ∨ ∃ least, p.leastEnd? w zone = some least ∧ least ≤ boundary

/-- Placing the fields of a zone that was closed takes the step in which it was closed. -/
theorem Closes.placeZone {s : Storage} {target : Boundaries}
    (closes : Closes w limit zone boundary p next step) (follows : p.Follows s)
    (aligned : zone.bytes ∣ s.start) (hit : target.boundary zone = boundary) :
    ∃ after, s.placeZone w limit target zone = .ok after ∧ next.Follows after := by
  have filled := closes.filled
  rw [follows.arms, follows.reached, ← hit] at filled
  refine ⟨_, Storage.placeZone_eq_ok.mpr ⟨aligned, step, filled, rfl⟩, closes.arms,
    closes.reached, ?_⟩
  rw [closes.steps, follows.steps]

/-- One class of a search for some arms: the plan is complete where the largest arm ends, or the
zone of the class is closed and the search goes on. -/
theorem Underway.search_cons (h : Underway w limit total (zone :: rest) p)
    (run : ZonePlan.search w limit total (zone :: zones) p = .ok plan) :
    (∃ least, p.reached ≤ least ∧ least ≤ total ∧ p.plan.skipped = false ∧
      exactBoundary? w zone p.reached least p.arms = some total ∧
      plan = { p.plan with boundaries := p.plan.boundaries.endFrom zone total }) ∨
    ∃ boundary next step, Closes w limit zone boundary p next step ∧
      Underway w limit total rest next ∧ ZonePlan.search w limit total zones next = .ok plan := by
  obtain ⟨least, known, searched, found, rfl⟩ |
    ⟨least, boundary, next, known, searched, found, closed, run⟩ |
    ⟨least, next, known, closed, run⟩ | ⟨next, unneeded, closed, run⟩ := ZonePlan.search_cons run
  · have start_le := leastEnd?_eq_some known
    have above :=
      (exactBoundary?_sound (h.aligned zone List.mem_cons_self) start_le h.sizes found).1
    exact .inl ⟨least, start_le, above, searched, found, rfl⟩
  · have start_le := leastEnd?_eq_some known
    have above :=
      (exactBoundary?_sound (h.aligned zone List.mem_cons_self) start_le h.sizes found).1
    have within := h.exact_le start_le searched found closed
    have under := h.close (Nat.le_trans start_le above) closed within
    obtain ⟨step, filled, rfl⟩ := close_eq_ok.mp closed
    exact .inr ⟨boundary, _, step, ⟨filled, rfl, rfl, rfl, rfl, Nat.le_trans start_le above, within,
      .inr ⟨least, known, above⟩⟩, under, run⟩
  · have degraded := h.degrade zone least
    have within := degraded.leastEnd_le known closed
    have under := degraded.close (leastEnd?_eq_some known) closed within
    obtain ⟨step, filled, rfl⟩ := close_eq_ok.mp closed
    obtain ⟨_, _, same⟩ := degrade_keeps zone least p.plan
    exact .inr ⟨least, _, step, ⟨filled, rfl, rfl, congrArg (·.setBoundary zone least) same,
      congrArg (· ++ [step]) (degrade_steps zone least p.plan), leastEnd?_eq_some known, within,
      .inr ⟨least, known, Nat.le_refl _⟩⟩, under, run⟩
  · have within := h.reached_le closed
    have under := h.close (Nat.le_refl _) closed within
    obtain ⟨step, filled, rfl⟩ := close_eq_ok.mp closed
    exact .inr ⟨p.reached, _, step, ⟨filled, rfl, rfl, rfl, rfl, Nat.le_refl _, within,
      .inl unneeded⟩, under, run⟩

/-- A plan ends the zones it has gone through where it closed them. -/
theorem Underway.boundary_of_closes {step : ZoneStep}
    (h : Underway w limit total (zone :: (zones ++ [.one])) p)
    (closes : Closes w limit zone boundary p next step)
    (run : ZonePlan.search w limit total zones next = .ok plan) :
    plan.boundaries.boundary zone = boundary :=
  boundary_of_search (List.pairwise_cons.mp h.ordered).1 closes.boundaries run

/-- The zones of a plan are in order. -/
theorem Underway.search (h : Underway w limit total (zones ++ [.one]) p)
    (run : ZonePlan.search w limit total zones p = .ok plan) : plan.boundaries.Ascending := by
  induction zones generalizing p with
  | nil =>
    cases run
    have above : p.reached ≤ max (max total p.reached) (p.plan.boundaries.boundary .two) := by
      omega
    exact (h.rises.set h.mem_iff_le above (Nat.le_refl _)).done
  | cons zone rest ih =>
    obtain ⟨least, start_le, least_le, _, _, rfl⟩ | ⟨_, next, _, _, under, run⟩ :=
      Underway.search_cons h run
    · exact h.rises.endFrom h.mem_iff_le (Nat.le_trans start_le least_le)
    · exact ih under run

/-- The search for some arms is under way from its start. -/
theorem underway_start {largest : Arm} {others : List Arm}
    (collected : ∀ arm ∈ largest :: others, arm.Collected w)
    (sizes : LargestArmFirst (largest :: others)) :
    Underway w limit largest.required Alignment.descending
      { arms := largest :: others, plan := { skipped := limit < largest.required } } := by
  refine ⟨⟨[], rfl⟩, fun _ _ => Nat.dvd_zero _, fun arm _ => arm.within_descending, sizes,
    fun arm member => ⟨?_, ?_⟩, (collected largest List.mem_cons_self).fits,
    fun searched => ?_, Boundaries.rises_zero⟩
  · exact Nat.le_of_eq (collected arm member).required_eq.symm
  · obtain rfl | later := List.mem_cons.mp member
    · exact Nat.le_refl _
    · exact (List.pairwise_cons.mp sizes).1 arm later
  · exact Nat.not_lt.mp (of_decide_eq_false searched)

/-- The zones that are planned for some arms are in order. -/
theorem ascending_ofArms (collected : ∀ arm ∈ arms, arm.Collected w) (sizes : LargestArmFirst arms)
    (planned : ofArms w limit arms = .ok plan) : plan.boundaries.Ascending := by
  cases arms with
  | nil =>
    cases planned
    exact fun zone => by cases zone <;> exact Nat.le_refl 0
  | cons largest rest =>
    exact @Underway.search w limit _ [.eight, .four, .two] _ _ (underway_start collected sizes)
      planned

end ZonePlan

/-- The zones of a variant are in order, those that were planned and those of its storage. -/
theorem Resolution.ascending_ofArms {r : Resolution} (collected : ∀ arm ∈ arms, arm.Collected w)
    (resolved : ofArms w limit arms = .ok r) : r.target.Ascending ∧ r.layout.Ascending := by
  obtain ⟨plan, planned, resolved⟩ := bind_eq_ok.mp resolved
  obtain ⟨storage, stored, resolved⟩ := bind_eq_ok.mp resolved
  cases resolved
  refine ⟨ZonePlan.ascending_ofArms (fun arm member => ?_) (largestArmFirst_byRequirement arms)
    planned, (Storage.ensures_place_ascending w limit _ _).of_ok stored⟩
  exact collected arm ((byRequirement_perm arms).mem_iff.mp member)

end PackedLayout
