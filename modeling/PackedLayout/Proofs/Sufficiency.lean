import PackedLayout.Proofs.Ascending
import PackedLayout.Proofs.Completeness
import PackedLayout.Proofs.StorageSize
import PackedLayout.Proofs.Templates

/-!
# Enough room for every arm

A variant has a plan for its zones and a storage, and both have room for every arm: below the
boundary of a class lie all bytes of the arm in that class and in larger ones. A zone ends at its
boundary in the plan or behind it, on a whole number of units of its class.

- `Arm.bytesFrom`, `Arm.Collected.bytesAtOrAbove_eq`: the bytes of an arm in a class and above;
- `Arm.LeftAt`, `ZoneStep.leftAt_fill`: what filling one zone leaves of the arms;
- `Underway.holds_search`, `Storage.holds_placeZones`: the plan and the storage have room;
- `Underway.search_le`: no zone ends before its boundary in the plan;
- `storage_suffices`: so it is for every variant that is laid out.
-/

namespace PackedLayout

variable {w : Width} {limit total start stop : Nat} {zone : Alignment} {arms now : List Arm}
  {zones rest : List Alignment}

/-! ## Bytes of a class and above -/

theorem exactSize_flatMap {α : Type} (f : α → List Item) (xs : List α) :
    exactSize (xs.flatMap f) = exactSum (xs.map fun x => exactSize (f x)) := by
  induction xs with
  | nil => rfl
  | cons x xs ih => rw [List.flatMap_cons, exactSize_append, ih, List.map_cons, exactSum_cons]

namespace Arm

variable {arm after : Arm} {stack : Stack} {a : Alignment}

/-- Bytes of the pending fields of a class and of larger ones. -/
def bytesFrom (a : Alignment) (arm : Arm) : Nat :=
  exactSize (arm.pending.filter fun item => a ≤ item.align)

theorem bytesFrom_le (a : Alignment) (arm : Arm) : arm.bytesFrom a ≤ exactSize arm.pending :=
  exactSum_le_of_sublist (List.filter_sublist.map _)

theorem bytesFrom_eq_mandatory (below : arm.Below zone) :
    arm.bytesFrom zone = exactSize (arm.mandatory zone) := by
  rw [bytesFrom, filter_le_eq_mandatory below]

/-- An arm that has only smaller fields left has nothing left of the class. -/
theorem bytesFrom_eq_zero (within : arm.Within zones) (smaller : ∀ b ∈ zones, b < a) :
    arm.bytesFrom a = 0 := by
  have none : (arm.pending.filter fun item => decide (a ≤ item.align)) = [] := by
    refine List.filter_eq_nil_iff.mpr fun item left => ?_
    rw [decide_eq_true_eq]
    exact Nat.not_le.mpr (smaller _ (within item left))
  rw [bytesFrom, none]
  rfl

theorem Filled.bytesFrom_le (filled : Filled zone arm after stack) (a : Alignment) :
    arm.bytesFrom a ≤ stack.height + after.bytesFrom a := by
  have split := exactSize_perm (filled.perm.filter fun item => decide (a ≤ item.align))
  have placed : exactSize (stack.items.filter fun item => decide (a ≤ item.align)) ≤
      exactSize stack.items := exactSum_le_of_sublist (List.filter_sublist.map _)
  rw [List.filter_append, exactSize_append] at split
  rw [filled.compact.height, bytesFrom, bytesFrom]
  omega

/-- The counts of an arm give its bytes in a class and above. -/
theorem Collected.bytesAtOrAbove_eq (collected : arm.Collected w) (a : Alignment) :
    arm.counts.bytesAtOrAbove w a = arm.bytesFrom a := by
  have distinct : (Alignment.descending.takeWhile (a ≤ ·)).Nodup ∧
      ∀ b, b ∈ Alignment.descending.takeWhile (a ≤ ·) ↔ a ≤ b := by
    cases a <;> exact ⟨by decide, fun b => by cases b <;> decide⟩
  unfold UnitCounts.bytesAtOrAbove
  generalize Alignment.descending.takeWhile (a ≤ ·) = classes at distinct
  obtain ⟨distinct, mem_classes⟩ := distinct
  have listed : ∀ item ∈ arm.pending.filter (fun item => decide (a ≤ item.align)),
      item.align ∈ classes := fun item member =>
    (mem_classes _).mpr (of_decide_eq_true (List.mem_filter.mp member).2)
  have perm := flatMap_filter_perm Item.align distinct listed
  have each : ∀ b ∈ classes,
      (arm.pending.filter fun item => decide (a ≤ item.align)).filter (·.align == b) =
        arm.mandatory b := by
    intro b listed
    rw [List.filter_filter, mandatory]
    refine List.filter_congr fun item _ => ?_
    by_cases same : item.align = b
    · simp [same, (mem_classes b).mp listed]
    · simp [same]
  have sum : exactSum (classes.map (arm.counts.bytes w)) = arm.bytesFrom a := by
    rw [bytesFrom, ← exactSize_perm perm, exactSize_flatMap]
    refine congrArg exactSum (List.map_congr_left fun b listed => ?_)
    rw [collected.counts_eq, each b listed]
  have fits : w.Fits (exactSum (classes.map (arm.counts.bytes w))) := by
    rw [sum]
    exact collected.fits.mono (collected.required_eq ▸ bytesFrom_le a arm)
  exact fits.wrap.trans sum

/-- An arm has some fields left, and those of a class and above that it has not lie below
`reached`. -/
structure LeftAt (reached : Nat) (arm now : Arm) : Prop where
  same : now = { arm with fields := now.fields }
  own : ∀ item ∈ now.pending, item ∈ arm.pending
  room : ∀ a, arm.bytesFrom a ≤ reached + now.bytesFrom a

theorem leftAt_self (arm : Arm) : arm.LeftAt 0 arm :=
  ⟨rfl, fun _ left => left, fun _ => Nat.le_add_left _ _⟩

theorem LeftAt.fill {now : Arm} (h : arm.LeftAt start now) (filled : now.Filled zone after stack)
    (le : start + stack.height ≤ stop) : arm.LeftAt stop after where
  same := by
    have same := filled.same
    rw [h.same] at same
    exact same
  own := fun item left => h.own item (filled.mem_of_mem_pending left)
  room := by
    intro b
    have before := h.room b
    have placed := filled.bytesFrom_le b
    omega

end Arm

/-- Filling a zone leaves every arm the fields that do not lie below its end. -/
theorem ZoneStep.leftAt_fill {boundary : Nat} {step : ZoneStep}
    (left : List.Forall₂ (Arm.LeftAt start) arms now) (below : ∀ arm ∈ now, arm.Below zone)
    (filled : ZoneStep.fill w limit zone start boundary now = .ok step) :
    List.Forall₂ (Arm.LeftAt step.stop) arms step.after := by
  obtain ⟨sound, here, began, before⟩ := (ensures_fillZone below).of_ok filled
  obtain ⟨results, after, piles, each⟩ := sound.filled
  rw [here, before] at each
  rw [after, List.forall₂_map_right_iff]
  have piled : ∀ r ∈ results, start + r.2.height ≤ step.stop := by
    intro r listed
    have le := sound.height_le r.2 (piles ▸ List.mem_map_of_mem listed)
    rw [sound.stop_eq, began]
    omega
  have high := ((List.forall₂_and_left _ _).mpr ⟨piled, each.flip⟩).flip
  exact forall₂_trans (fun arm now r h ⟨le, fill⟩ => h.fill fill le) left high

/-- Every arm has room: its bytes of a class and above lie below the end of the class. -/
def Boundaries.Hold (arms : List Arm) (b : Boundaries) : Prop :=
  ∀ arm ∈ arms, ∀ a, arm.bytesFrom a ≤ b.boundary a

/-! ## The storage -/

namespace Storage

variable {s after last : Storage} {target : Boundaries} {steps : List ZoneStep}

/-- The zones filled so far have room for every arm and whole units of their classes, and the arms
have the other fields left. -/
structure Holding (arms : List Arm) (zones : List Alignment) (s : Storage) : Prop where
  left : List.Forall₂ (Arm.LeftAt s.start) arms s.arms
  enough : ∀ a ∉ zones, ∀ arm ∈ arms, arm.bytesFrom a ≤ s.ends.boundary a
  whole : ∀ a ∉ zones, a.bytes ∣ s.ends.boundary a

theorem holding_start (arms : List Arm) : Holding arms Alignment.descending { arms } where
  left := List.forall₂_same.mpr fun arm _ => arm.leftAt_self
  enough := fun a fresh => absurd a.mem_descending fresh
  whole := fun a fresh => absurd a.mem_descending fresh

theorem placeZone_holding (placing : Placing w arms (zone :: zones) s)
    (h : Holding arms (zone :: zones) s) (placed : s.placeZone w limit target zone = .ok after) :
    Holding arms zones after := by
  have placing' := (ensures_placeZone placing).of_ok placed
  obtain ⟨aligned, step, filled, rfl⟩ := placeZone_eq_ok.mp placed
  have left := ZoneStep.leftAt_fill h.left placing.below filled
  obtain ⟨sound, here, began, _⟩ := (ZoneStep.ensures_fillZone placing.below).of_ok filled
  refine ⟨left, fun a fresh arm member => ?_, fun a fresh => ?_⟩
  · rw [Boundaries.boundary_setBoundary]
    split
    · rename_i same
      subst same
      -- the arm has only smaller fields left, so all of these lie below the end of the zone
      obtain ⟨now, there, own⟩ := exists_right_of_mem left member
      obtain ⟨_, _, within, _⟩ := exists_left_of_mem placing'.left there
      have none : now.bytesFrom zone = 0 :=
        Arm.bytesFrom_eq_zero within (List.pairwise_cons.mp placing.ordered).1
      have room := own.room zone
      rwa [none, Nat.add_zero] at room
    · rename_i differ
      exact h.enough a (List.not_mem_cons_of_ne_of_not_mem (Ne.symm differ) fresh) arm member
  · rw [Boundaries.boundary_setBoundary]
    split
    · rename_i same
      subst same
      rw [sound.stop_eq, began]
      exact Nat.dvd_add aligned (here ▸ sound.size_dvd)
    · rename_i differ
      exact h.whole a (List.not_mem_cons_of_ne_of_not_mem (Ne.symm differ) fresh)

/-- The zones still to fill end behind where they start, and the others stay as they are. -/
theorem Fills.ends (fills : Fills w limit target zones s steps last)
    (placing : Placing w arms zones s) :
    (∀ a ∈ zones, s.start ≤ last.ends.boundary a) ∧
      ∀ a ∉ zones, last.ends.boundary a = s.ends.boundary a := by
  induction fills with
  | nil => exact ⟨fun a absent => absurd absent List.not_mem_nil, fun _ _ => rfl⟩
  | @cons zone rest s last step steps filled others ih =>
    obtain ⟨sound, _, began, _⟩ := (ZoneStep.ensures_fillZone placing.below).of_ok filled
    have onward : s.start ≤ step.stop := by
      rw [sound.stop_eq, began]
      exact Nat.le_add_right _ _
    obtain ⟨behind, kept⟩ := ih (placing.fill filled)
    have fresh : zone ∉ rest := fun again =>
      Nat.lt_irrefl _ ((List.pairwise_cons.mp placing.ordered).1 zone again)
    constructor
    · intro a listed
      obtain rfl | later := List.mem_cons.mp listed
      · rw [kept a fresh, Boundaries.boundary_setBoundary, if_pos rfl]
        exact onward
      · exact Nat.le_trans onward (behind a later)
    · intro a unlisted
      obtain ⟨differ, later⟩ := List.ne_and_not_mem_of_not_mem_cons unlisted
      rw [kept a later, Boundaries.boundary_setBoundary, if_neg (Ne.symm differ)]

/-- The storage has room for every arm, and its zones end on whole units of their classes. -/
theorem ensures_place_holding (w : Width) (limit : Nat) (target : Boundaries) (arms : List Arm) :
    Ensures (· = .overflow) (fun s => s.ends.Hold arms ∧ ∀ a, a.bytes ∣ s.ends.boundary a)
      (place w limit target arms) := by
  cases placed : place w limit target arms with
  | error e => exact (ensures_place w limit target arms).of_error placed
  | ok last =>
    have run : Ensures (· = Failure.overflow)
        (fun s => Placing w arms [] s ∧ Holding arms [] s)
        (Alignment.descending.foldlM (placeZone w limit target) { arms }) := by
      refine Ensures.foldlM (fun zones s => Placing w arms zones s ∧ Holding arms zones s)
        (fun zone rest s ⟨placing, h⟩ => ?_) ⟨Placing.start w arms, holding_start arms⟩
      cases ran : s.placeZone w limit target zone with
      | error e => exact (ensures_placeZone placing).of_error ran
      | ok after => exact ⟨(ensures_placeZone placing).of_ok ran, placeZone_holding placing h ran⟩
    have h := (run.of_ok (placeZones_of_place placed)).2
    exact ⟨fun arm member a => h.enough a List.not_mem_nil arm member,
      fun a => h.whole a List.not_mem_nil⟩

end Storage

/-! ## The plan -/

namespace ZonePlan

variable {p next : Progress} {plan : ZonePlan} {boundary : Nat} {step : ZoneStep}

/-- The zones planned so far have room for the arms, and the arms have the other fields left. -/
structure Holding (arms : List Arm) (zones : List Alignment) (p : Progress) : Prop where
  left : List.Forall₂ (Arm.LeftAt p.reached) arms p.arms
  enough : ∀ a ∉ zones, ∀ arm ∈ arms, arm.bytesFrom a ≤ p.plan.boundaries.boundary a

namespace Holding

/-- A boundary that closes a zone has the arm's fields of the class below it. -/
theorem le_boundary (h : Holding arms (zone :: zones) p)
    (under : Underway w limit total (zone :: zones) p)
    (closes : Closes w limit zone boundary p next step) {arm : Arm} (member : arm ∈ arms)
    (collected : arm.Collected w) : arm.bytesFrom zone ≤ boundary := by
  obtain ⟨now, there, own⟩ := exists_right_of_mem h.left member
  have room := own.room zone
  have above := closes.above
  obtain unneeded | ⟨least, known, le⟩ := closes.least
  · -- the arm has no field of the class, or it ends below the zone
    have kept := List.any_eq_false.mp unneeded now there
    have counts : now.counts = arm.counts := by rw [own.same]
    have required : now.required = arm.required := by rw [own.same]
    rw [Bool.and_eq_true, decide_eq_true_eq, decide_eq_true_eq, not_and_or, counts, required,
      collected.counts_eq] at kept
    obtain none | ended := kept
    · have part : exactSize (now.mandatory zone) ≤ exactSize (arm.mandatory zone) := by
        have empty := eq_nil_of_exactSize
          (fun item must => collected.whole item (Arm.mem_mandatory.mp must).1)
          (Nat.eq_zero_of_not_pos none)
        have left : now.mandatory zone = [] := by
          refine List.eq_nil_iff_forall_not_mem.mpr fun item must => ?_
          obtain ⟨pending, class_⟩ := Arm.mem_mandatory.mp must
          have here : item ∈ arm.mandatory zone :=
            Arm.mem_mandatory.mpr ⟨own.own item pending, class_⟩
          exact absurd here (empty ▸ List.not_mem_nil)
        rw [left]
        exact Nat.zero_le _
      rw [Arm.bytesFrom_eq_mandatory (under.below now there)] at room
      omega
    · have all := arm.bytesFrom_le zone
      have size := collected.required_eq
      omega
  · obtain ⟨_, rfl⟩ := Width.checked_eq_some.mp known
    have most : now.pendingBytes w (zone ≤ ·) ≤
        (p.arms.map (Arm.pendingBytes w (zone ≤ ·))).foldl max 0 := ZoneStep.le_foldl_max_map there
    have bounds := under.each now there
    rw [Arm.pendingBytes_eq (under.fits.mono (by omega))] at most
    have pending : now.bytesFrom zone =
      exactSize (now.pending.filter fun item => decide (zone ≤ item.align)) := rfl
    omega

/-- A zone that is closed has room for the arms. -/
theorem close (h : Holding arms (zone :: zones) p)
    (under : Underway w limit total (zone :: zones) p)
    (closes : Closes w limit zone boundary p next step)
    (collected : ∀ arm ∈ arms, arm.Collected w) : Holding arms zones next := by
  constructor
  · rw [closes.reached, closes.arms]
    exact ZoneStep.leftAt_fill h.left under.below closes.filled
  · intro a fresh arm member
    rw [closes.boundaries, Boundaries.boundary_setBoundary]
    split
    · rename_i same
      subst same
      exact h.le_boundary under closes member (collected arm member)
    · rename_i differ
      exact h.enough a (List.not_mem_cons_of_ne_of_not_mem (Ne.symm differ) fresh) arm member

/-- A search gives a plan with room for the arms. -/
theorem search (h : Holding arms (zones ++ [.one]) p)
    (under : Underway w limit total (zones ++ [.one]) p)
    (collected : ∀ arm ∈ arms, arm.Collected w) (largest : ∀ arm ∈ arms, arm.required ≤ total)
    (run : ZonePlan.search w limit total zones p = .ok plan) : plan.boundaries.Hold arms := by
  have whole (arm : Arm) (member : arm ∈ arms) (a : Alignment) : arm.bytesFrom a ≤ total := by
    have all := arm.bytesFrom_le a
    rw [← (collected arm member).required_eq] at all
    exact Nat.le_trans all (largest arm member)
  induction zones generalizing p with
  | nil =>
    cases run
    intro arm member a
    rw [Boundaries.boundary_setBoundary]
    split
    · have := whole arm member a
      omega
    · rename_i differ
      exact h.enough a (fun same => differ (List.mem_singleton.mp same).symm) arm member
  | cons zone rest ih =>
    obtain ⟨_, _, _, _, _, rfl⟩ | ⟨_, next, _, closes, further, run⟩ :=
      Underway.search_cons under run
    · intro arm member a
      rw [Boundaries.boundary_endFrom]
      split
      · exact whole arm member a
      · rename_i larger
        exact h.enough a (fun listed => larger ((under.mem_iff_le a).mp listed)) arm member
    · exact ih (h.close under closes collected) further run

end Holding

/-- No zone of the storage ends before its boundary in the plan. -/
theorem Underway.search_le {s last : Storage} (under : Underway w limit total (zones ++ [.one]) p)
    (placing : s.Placing w arms (zones ++ [.one])) (follows : p.Follows s)
    (run : ZonePlan.search w limit total zones p = .ok plan)
    (placed :
      (zones ++ [Alignment.one]).foldlM (Storage.placeZone w limit plan.boundaries) s = .ok last)
    (room : total ≤ last.ends.total) :
    ∀ a ∈ zones ++ [.one], plan.boundaries.boundary a ≤ last.ends.boundary a := by
  induction zones generalizing p s with
  | nil =>
    cases run
    intro a listed
    rw [List.mem_singleton.mp listed, Boundaries.boundary_setBoundary, if_pos rfl]
    obtain ⟨_, fills⟩ := Storage.fills_of_placeZones placed
    have behind := (fills.ends placing).1 .one List.mem_cons_self
    have two := under.rises.below .two (by decide)
    have total_eq : last.ends.total = last.ends.boundary .one := rfl
    rw [follows.reached] at two ⊢
    omega
  | cons zone rest ih =>
    rw [List.cons_append] at placed placing under ⊢
    have aligned := placing.aligned zone List.mem_cons_self
    have fresh : zone ∉ rest ++ [.one] := fun again =>
      Nat.lt_irrefl _ ((List.pairwise_cons.mp placing.ordered).1 zone again)
    rw [List.foldlM_cons, bind_eq_ok] at placed
    obtain ⟨after, first, placed⟩ := placed
    have further := (Storage.ensures_placeZone placing).of_ok first
    obtain ⟨_, fills⟩ := Storage.fills_of_placeZones placed
    obtain ⟨behind, kept⟩ := fills.ends further
    have ended : last.ends.boundary zone = after.start := by
      obtain ⟨_, step, _, rfl⟩ := Storage.placeZone_eq_ok.mp first
      rw [kept zone fresh, Boundaries.boundary_setBoundary, if_pos rfl]
    obtain ⟨least, start_le, _, searched, found, rfl⟩ |
      ⟨boundary, next, step, closes, onward, run⟩ :=
      under.search_cons run
    · -- the zone gets at least as large as the largest arm, and the others end behind it
      have hit : (p.plan.boundaries.endFrom zone total).boundary zone = total := by
        rw [Boundaries.boundary_endFrom, if_pos zone.le_refl]
      obtain ⟨next, closed, same, _⟩ := follows.closes hit first
      have reach := under.exact_le start_le searched found closed
      rw [same.reached] at reach
      intro a listed
      rw [Boundaries.boundary_endFrom, if_pos ((under.mem_iff_le a).mp listed)]
      obtain rfl | later := List.mem_cons.mp listed
      · rw [ended]
        exact reach
      · exact Nat.le_trans reach (behind a later)
    · have target := under.boundary_of_closes closes run
      obtain ⟨_, again, same⟩ := closes.placeZone follows aligned target
      obtain rfl := Except.ok.inj (first.symm.trans again)
      intro a listed
      obtain rfl | later := List.mem_cons.mp listed
      · rw [ended, target, ← same.reached, closes.reached]
        exact closes.within
      · exact ih onward further same run placed a later

variable {w : Width} {limit : Nat} {arms : List Arm} {plan : ZonePlan}

/-- A plan has room for the arms it was made for. -/
theorem hold_ofArms (collected : ∀ arm ∈ arms, arm.Collected w) (sizes : LargestArmFirst arms)
    (planned : ofArms w limit arms = .ok plan) : plan.boundaries.Hold arms := by
  cases arms with
  | nil => exact fun _ absent => absurd absent List.not_mem_nil
  | cons largest rest =>
    have under := @underway_start w limit _ _ collected sizes
    have start : Holding (largest :: rest) Alignment.descending
        { arms := largest :: rest, plan := { skipped := limit < largest.required } } :=
      ⟨List.forall₂_same.mpr fun arm _ => arm.leftAt_self,
        fun a fresh => absurd a.mem_descending fresh⟩
    exact @Holding.search w limit _ _ [.eight, .four, .two] _ _ start under collected
      (fun arm member => (under.each arm member).2) planned

/-- No zone ends before its boundary in the plan it is filled by. -/
theorem ofArms_le_place {s : Storage} (collected : ∀ arm ∈ arms, arm.Collected w)
    (sizes : LargestArmFirst arms) (planned : ofArms w limit arms = .ok plan)
    (placed : Storage.place w limit plan.boundaries arms = .ok s) (a : Alignment) :
    plan.boundaries.boundary a ≤ s.ends.boundary a := by
  cases arms with
  | nil =>
    cases planned
    cases a <;> exact Nat.zero_le _
  | cons largest rest =>
    have room := (Storage.holds_of_place placed).2 largest List.mem_cons_self
    rw [← (collected largest List.mem_cons_self).required_eq] at room
    exact @Underway.search_le w limit _ _ [.eight, .four, .two] _ _ _ _
      (underway_start collected sizes) (Storage.Placing.start w _) ⟨rfl, rfl, rfl⟩ planned
      (Storage.placeZones_of_place placed) room a a.mem_descending

end ZonePlan

/-! ## Variants -/

namespace Resolution

variable {r : Resolution}

/-- The plan and the storage of a variant have room for every arm, and a zone of the storage ends
where it was planned or behind it, on whole units of its class. -/
theorem ofArms_holds (collected : ∀ arm ∈ arms, arm.Collected w)
    (resolved : ofArms w limit arms = .ok r) :
    r.target.Hold arms ∧ r.layout.Hold arms ∧
      ∀ a, r.target.boundary a ≤ r.layout.boundary a ∧ a.bytes ∣ r.layout.boundary a := by
  obtain ⟨plan, planned, resolved⟩ := bind_eq_ok.mp resolved
  obtain ⟨storage, stored, resolved⟩ := bind_eq_ok.mp resolved
  cases resolved
  have ordered := largestArmFirst_byRequirement arms
  have mem_iff {arm : Arm} := (byRequirement_perm arms).mem_iff (a := arm)
  have collected : ∀ arm ∈ byRequirement arms, arm.Collected w :=
    fun arm member => collected arm (mem_iff.mp member)
  obtain ⟨room, whole⟩ := (Storage.ensures_place_holding _ _ _ _).of_ok stored
  have planHolds := ZonePlan.hold_ofArms collected ordered planned
  exact ⟨fun arm member => planHolds arm (mem_iff.mpr member),
    fun arm member => room arm (mem_iff.mpr member),
    fun a => ⟨ZonePlan.ofArms_le_place collected ordered planned stored a, whole a⟩⟩

/-- What a resolution reports as padding is the storage above the largest arm. -/
theorem padded_mem_degradations (resolved : ofArms w limit arms = .ok r) {n : Nat} :
    .padded n ∈ r.degradations ↔ r.required < r.layout.total ∧ n = r.layout.total - r.required := by
  obtain ⟨_, _, degradations⟩ := exists_place resolved
  rw [degradations, ZonePlan.degradations, Storage.padding, layout]
  by_cases larger : r.required < r.storage.ends.total <;> simp [larger]

end Resolution

/-- Both records of the zones of a variant, the plan and the storage, are in order and have room for
every arm: below the boundary of a class lie the bytes of the arm in that class and in larger ones.
A zone of the storage ends where it was planned or behind it, on whole units of its class. The
storage is at least as large as the largest arm, and larger exactly by the padding that is
reported. -/
theorem storage_suffices (setting : Setting) (structs depth : Nat) (span : Span)
    (ids : List TypeId) {draft after : Draft} {cache : Cache}
    (sound : cache.Sound setting.schema setting.width)
    (laid : (layOutVariant setting.width setting.options span
      (layOutType setting (template setting structs) depth) ids draft cache).1 = .ok after) :
    ∃ tagged inner arms r,
      draft.putLeaf setting.width span (.ofSize (tagSize ids.length)) (tagSize ids.length) =
        .ok tagged ∧
      (collectArms setting.width span (layOutType setting (template setting structs) depth) 0 [] ids
        { tagged with container := .arm [] } cache).1 = .ok (arms, inner) ∧
      Resolution.ofArms setting.width setting.options.maxSearchBytes arms = .ok r ∧
      after.variants = inner.variants.push
        ⟨draft.slots, ids.length, r.target, r.layout, r.required, r.isPerfect, span⟩ ∧
      after.warnings = inner.warnings ++ r.degradations.map (fun d => (⟨d, span⟩ : Warning)) ∧
      r.target.Ascending ∧ r.layout.Ascending ∧
      (∀ arm ∈ arms, ∀ a, arm.counts.bytesAtOrAbove setting.width a = arm.bytesFrom a ∧
        arm.bytesFrom a ≤ r.target.boundary a ∧ arm.bytesFrom a ≤ r.layout.boundary a) ∧
      (∀ a, r.target.boundary a ≤ r.layout.boundary a ∧ a.bytes ∣ r.layout.boundary a) ∧
      r.required ≤ r.layout.total ∧
      (r.layout.total = r.required ↔ ∀ n, .padded n ∉ r.degradations) ∧
      ∀ n, .padded n ∈ r.degradations → n = r.layout.total - r.required := by
  obtain ⟨tagged, inner, arms, r, tag, walked, resolved, put⟩ := layOutVariant_eq_ok_iff.mp laid
  have lays := keeps_layOutType (keeps_template setting structs) depth
  have room := ((ensures_putTag _).of_ok tag).slots_le
  have start : Collects setting.width { tagged with container := .arm [] }
      { tagged with container := .arm [] } [] (List.reverse []) := collects_nil room rfl
  obtain ⟨_, _, collects⟩ := (keeps_collectArms lays ids start cache sound).2.of_ok walked
  have collected := collects.collected
  have same := (Draft.of_putVariant put).2.1
  have ascending := Resolution.ascending_ofArms collected resolved
  obtain ⟨targetHolds, layoutHolds, ends⟩ := Resolution.ofArms_holds collected resolved
  refine ⟨tagged, inner, arms, r, tag, walked, resolved, by rw [same], by rw [same], ascending.1,
    ascending.2, fun arm member a => ?_, ends, Resolution.required_le_total collected resolved,
    ⟨fun tight n padded => ?_, Resolution.total_eq_required collected resolved⟩,
    fun n padded => ((Resolution.padded_mem_degradations resolved).mp padded).2⟩
  · exact ⟨(collected arm member).bytesAtOrAbove_eq a, targetHolds arm member a,
      layoutHolds arm member a⟩
  · have larger := ((Resolution.padded_mem_degradations resolved).mp padded).1
    omega

/-- A schema with a record of 9 bytes and an integer of 8. -/
def parcels : Setting where
  schema.types := ⟨#[⟨.primitive .uint64, .dummy⟩, ⟨.primitive .uint32, .dummy⟩,
    ⟨.fixedString 5, .dummy⟩,
    ⟨.record [⟨"weight", ⟨1⟩, .dummy⟩, ⟨"code", ⟨2⟩, .dummy⟩], .dummy⟩]⟩

/-- The integer, and the record. -/
def parcelArms : List Arm :=
  [⟨0, ⟨⟨1, 0, 0, 0⟩⟩, 8, [some ⟨8, .eight, [⟨1, .eight, 0, []⟩]⟩]⟩,
    ⟨1, ⟨⟨0, 1, 0, 5⟩⟩, 9,
      [some ⟨4, .four, [⟨2, .four, 0, []⟩]⟩, some ⟨5, .one, [⟨3, .one, 0, []⟩]⟩]⟩]

theorem layOutVariant_parcels :
    ∃ after,
      (layOutVariant .bits64 parcels.options .dummy (layOutType parcels (template parcels 0) 2)
        [⟨0⟩, ⟨3⟩] .empty .empty).1 = .ok after ∧
      after.variants = #[⟨0, 2, ⟨⟨8, 12, 12, 12⟩⟩, ⟨⟨8, 12, 12, 12⟩⟩, 9, false, .dummy⟩] := by
  have order : byRequirement parcelArms = parcelArms.reverse :=
    byRequirement_eq (List.reverse_perm _) (by decide) (by decide)
  exact ⟨_, layOutVariant_eq_ok_iff.mpr ⟨_, _, parcelArms, _, rfl, rfl,
    by rw [Resolution.ofArms, order]; rfl, by rfl⟩, by rfl⟩

/-- The string goes into the zone of the integer, and the record takes 12 bytes. -/
theorem storage_suffices_parcels :
    ∃ after arms r,
      (layOutVariant .bits64 parcels.options .dummy (layOutType parcels (template parcels 0) 2)
        [⟨0⟩, ⟨3⟩] .empty .empty).1 = .ok after ∧
      Resolution.ofArms .bits64 parcels.options.maxSearchBytes arms = .ok r ∧
      r.target = ⟨⟨8, 12, 12, 12⟩⟩ ∧ r.target.Ascending ∧ r.required = 9 ∧ r.layout.total = 12 ∧
      (∀ n, .padded n ∈ r.degradations → n = 3) ∧
      ∀ arm ∈ arms, arm.bytesFrom .four ≤ r.target.boundary .four := by
  obtain ⟨after, laid, recorded⟩ := layOutVariant_parcels
  obtain ⟨_, _, arms, r, _, _, resolved, variants, _, ascending, _, holds, _, _, _, wasted⟩ :=
    storage_suffices parcels 0 2 .dummy [⟨0⟩, ⟨3⟩] (fun _ absent => absurd absent List.not_mem_nil)
      laid
  have same := congrArg Array.back? (variants.symm.trans recorded)
  rw [Array.back?_push] at same
  obtain ⟨-, -, target, layout, required, -, -⟩ := VariantLayout.mk.inj (Option.some.inj same)
  rw [layout, required] at wasted
  exact ⟨after, arms, r, laid, resolved, target, ascending, required, congrArg _ layout, wasted,
    fun arm member => (holds arm member .four).2.1⟩

end PackedLayout
