import PackedLayout.Proofs.Filling
import PackedLayout.Proofs.Repeating
import PackedLayout.Variant.Resolution

/-!
# New numbers for slots and packs

How a variant is resolved does not depend on how its leaves are numbered. With new numbers for
slots and packs, every step of the search and of the placement is the same step, on the renamed
leaves:

- `Arm.fill_rename`, `ZoneStep.fill_rename`: one zone;
- `ZonePlan.ofArms_rename`, `Storage.place_rename`: the plan and the storage;
- `Resolution.ofArms_rename`: the resolution.
-/

namespace PackedLayout

structure Renaming where
  slot : Nat → Nat
  pack : PackId → PackId

/-- All slots and packs moved up, to come after others. -/
def Renaming.shift (slots packs : Nat) : Renaming where
  slot := (· + slots)
  pack := PackId.renumber packs

def Leaf.rename (f : Renaming) (leaf : Leaf) : Leaf :=
  { leaf with slot := f.slot leaf.slot, packs := leaf.packs.map f.pack }

def Item.rename (f : Renaming) (item : Item) : Item :=
  { item with leaves := item.leaves.map (Leaf.rename f) }

def Zone.rename (f : Renaming) (zone : Zone) : Zone :=
  { zone with leaves := zone.leaves.map (Leaf.rename f) }

def Arm.rename (f : Renaming) (arm : Arm) : Arm :=
  { arm with fields := arm.fields.map (Option.map (Item.rename f)) }

def Stack.rename (f : Renaming) (stack : Stack) : Stack :=
  { stack with placed := stack.placed.map fun p => (p.1, p.2.rename f) }

def ZoneStep.rename (f : Renaming) (step : ZoneStep) : ZoneStep :=
  { step with
    before := step.before.map (Arm.rename f)
    after := step.after.map (Arm.rename f)
    armStacks := step.armStacks.map (Stack.rename f) }

def ZonePlan.rename (f : Renaming) (plan : ZonePlan) : ZonePlan :=
  { plan with steps := plan.steps.map (ZoneStep.rename f) }

def ZonePlan.Progress.rename (f : Renaming) (p : Progress) : Progress :=
  { p with arms := p.arms.map (Arm.rename f), plan := p.plan.rename f }

def Storage.rename (f : Renaming) (s : Storage) : Storage :=
  { s with arms := s.arms.map (Arm.rename f), steps := s.steps.map (ZoneStep.rename f) }

def Resolution.rename (f : Renaming) (r : Resolution) : Resolution :=
  { r with plan := r.plan.rename f, storage := r.storage.rename f }

section Runs

variable {ε α β γ : Type}

/-- A run over renamed elements, step by step. -/
theorem mapM_map_comm {g : α → α} {h : β → β} {step : α → Except ε β} {xs : List α}
    (each : ∀ x, step (g x) = h <$> step x) :
    (xs.map g).mapM step = List.map h <$> xs.mapM step := by
  induction xs with
  | nil => rfl
  | cons x xs ih => simp only [List.map_cons, List.mapM_cons, each, ih, bind_map_left, map_bind,
      map_pure]

/-- A run from a renamed start, step by step. -/
theorem foldlM_comm {m : Type → Type} [Monad m] [LawfulMonad m] {h : β → β} {g : α → α}
    {step step' : β → α → m β} (b : β)
    (each : ∀ b x, step' (h b) (g x) = h <$> step b x) (xs : List α) :
    (xs.map g).foldlM step' (h b) = h <$> xs.foldlM step b := by
  induction xs generalizing b with
  | nil => simp only [List.map_nil, List.foldlM_nil, map_pure]
  | cons x xs ih => simp only [List.map_cons, List.foldlM_cons, each, bind_map_left, map_bind, ih]

end Runs

variable {w : Width} {limit : Nat} {f : Renaming}

/-! ## Leaves and items -/

@[simp] theorem Item.size_rename (item : Item) : (item.rename f).size = item.size := rfl

@[simp] theorem Item.align_rename (item : Item) : (item.rename f).align = item.align := rfl

section Items

variable (items : List Item)

theorem map_size_rename : (items.map (Item.rename f)).map (·.size) = items.map (·.size) := by
  rw [List.map_map]
  rfl

theorem totalSize_rename : totalSize w (items.map (Item.rename f)) = totalSize w items := by
  rw [totalSize, totalSize, map_size_rename]

theorem exactSize_rename : exactSize (items.map (Item.rename f)) = exactSize items := by
  rw [exactSize, exactSize, map_size_rename]

/-- A test of the class takes the same items. -/
theorem filter_align_rename (test : Alignment → Bool) :
    (items.map (Item.rename f)).filter (fun item => test item.align) =
      (items.filter fun item => test item.align).map (Item.rename f) :=
  List.filter_map

theorem largestFirst_rename :
    largestFirst (items.map (Item.rename f)) = (largestFirst items).map (Item.rename f) := by
  exact (map_byClass Item.align (Item.rename f) items).symm

theorem backToBack_rename (start : Nat) :
    backToBack start (items.map (Item.rename f)) =
      (backToBack start items).map fun p => (p.1, p.2.rename f) := by
  induction items generalizing start with
  | nil => rfl
  | cons item rest ih =>
    rw [List.map_cons, backToBack, backToBack, List.map_cons, Item.size_rename, ih]

end Items

/-! ## Arms -/

theorem Stack.leaves_rename (stack : Stack) :
    (stack.rename f).leaves w = (stack.leaves w).map (Leaf.rename f) := by
  show (stack.placed.map _).flatMap _ = (stack.placed.flatMap _).map _
  rw [List.flatMap_map, List.map_flatMap]
  refine List.flatMap_congr fun p _ => ?_
  show (p.2.leaves.map _).map _ = (p.2.leaves.map _).map _
  rw [List.map_map, List.map_map]
  rfl

namespace Arm

theorem of?_rename (index : Nat) (fields : List Item) :
    of? w index (fields.map (Item.rename f)) = (of? w index fields).map (rename f) := by
  have same : (fields.map (Item.rename f)).foldlM (count? w) (.empty, 0) =
      fields.foldlM (count? w) (.empty, 0) := by
    rw [List.foldlM_map]
    rfl
  have blocks : (fields.map (Item.rename f)).map some =
      (fields.map some).map (Option.map (Item.rename f)) := by
    rw [List.map_map, List.map_map]
    rfl
  rw [of?, of?, same, blocks, Option.map_map]
  rfl

@[simp] theorem pending_rename (arm : Arm) :
    (arm.rename f).pending = arm.pending.map (Item.rename f) := by
  unfold pending rename
  rw [List.filterMap_map, List.map_filterMap]
  rfl

theorem unplaced_rename (arm : Arm) :
    (arm.rename f).unplaced = arm.unplaced.map (Prod.map id (Item.rename f)) := by
  unfold unplaced rename
  rw [List.zipIdx_map, List.filterMap_map, List.map_filterMap]
  apply List.filterMap_congr
  rintro ⟨field, position⟩ _
  cases field <;> rfl

theorem pendingBytes_rename (test : Alignment → Bool) (arm : Arm) :
    (arm.rename f).pendingBytes w test = arm.pendingBytes w test := by
  rw [pendingBytes, pendingBytes, pending_rename, filter_align_rename, totalSize_rename]

theorem zoneSums_rename (zone : Alignment) (arm : Arm) :
    (arm.rename f).zoneSums w zone = arm.zoneSums w zone := by
  have sizes : ((arm.rename f).pending.filter fun item => item.align < zone).map (·.size) =
      (arm.pending.filter fun item => item.align < zone).map (·.size) := by
    rw [pending_rename, filter_align_rename arm.pending (· < zone), map_size_rename]
  unfold zoneSums
  rw [pendingBytes_rename, pendingBytes_rename]
  dsimp only
  rw [sizes]

theorem mandatory_rename (zone : Alignment) (arm : Arm) :
    (arm.rename f).mandatory zone = (arm.mandatory zone).map (Item.rename f) := by
  rw [mandatory, pending_rename]
  exact filter_align_rename arm.pending (· == zone)

theorem optional_rename (zone : Alignment) (arm : Arm) :
    (arm.rename f).optional zone = (arm.optional zone).map (Item.rename f) := by
  rw [optional, optional, ← largestFirst_rename, pending_rename]
  exact congrArg largestFirst (filter_align_rename arm.pending (· != zone))

/-- Which fields an arm takes is told by their sizes. -/
theorem taken_rename (zone : Alignment) (capacity : Nat) (arm : Arm) :
    (arm.rename f).taken limit zone capacity = arm.taken limit zone capacity := by
  unfold taken fillMask
  rw [mandatory_rename, optional_rename]
  simp only [exactSize_rename, map_size_rename, List.length_map]

theorem picks_rename (zone : Alignment) (mask : List Bool) (arm : Arm) :
    (arm.rename f).picks zone mask =
      (arm.picks zone mask).map (Prod.map id (Item.rename f)) := by
  have optional : (arm.rename f).optionalAt zone =
      (arm.optionalAt zone).map (Prod.map id (Item.rename f)) := by
    unfold optionalAt
    rw [unplaced_rename, List.filter_map]
    exact (map_byClass (·.2.align) (Prod.map id (Item.rename f)) _).symm
  unfold picks mandatoryAt
  rw [unplaced_rename, optional, List.filter_map, chosen_map, ← List.map_append]
  rfl

theorem ready_rename (zone : Alignment) (arm : Arm) :
    (arm.rename f).ready w zone = arm.ready w zone := by
  have missed : (arm.rename f).pending.find? (fun item => zone < item.align) =
      (arm.pending.find? fun item => zone < item.align).map (Item.rename f) := by
    rw [pending_rename]
    exact List.find?_map
  unfold ready
  rw [missed, pending_rename, exactSize_rename]
  cases arm.pending.find? fun item => zone < item.align <;> rfl

theorem left_rename (zone : Alignment) (mask : List Bool) (arm : Arm) :
    (arm.rename f).left zone mask = (arm.left zone mask).rename f := by
  unfold left
  rw [picks_rename, List.map_map]
  exact congrArg (Arm.mk _ _ _) (gapsAt_map _ _ _)

theorem pile_rename (zone : Alignment) (mask : List Bool) (arm : Arm) :
    (arm.rename f).pile zone mask = (arm.pile zone mask).rename f := by
  have picked : (arm.rename f).picked zone mask = (arm.picked zone mask).map (Item.rename f) := by
    rw [Arm.picked, Arm.picked, mandatory_rename, optional_rename, chosen_map, List.map_append]
  unfold pile
  rw [picked, exactSize_rename, backToBack_rename, ← List.map_reverse]
  rfl

theorem fill_rename (zone : Alignment) (capacity : Nat) (arm : Arm) :
    (arm.rename f).fill w limit zone capacity =
      Prod.map (rename f) (Stack.rename f) <$> arm.fill w limit zone capacity := by
  rw [fill_eq, fill_eq, ready_rename, taken_rename]
  cases arm.ready w zone with
  | error e => rfl
  | ok _ => exact congrArg Except.ok (Prod.ext (left_rename ..) (pile_rename ..))

end Arm

/-! ## Zones -/

namespace ZoneStep

theorem highest_rename (armStacks : List Stack) :
    highest (armStacks.map (Stack.rename f)) = highest armStacks := by
  rw [highest, highest, List.map_map]
  rfl

theorem fill_rename (zone : Alignment) (start boundary : Nat) (arms : List Arm) :
    fill w limit zone start boundary (arms.map (Arm.rename f)) =
      rename f <$> fill w limit zone start boundary arms := by
  unfold fill
  dsimp only
  rw [mapM_map_comm (h := Prod.map (Arm.rename f) (Stack.rename f)) (Arm.fill_rename zone _),
    bind_map_left, map_bind]
  refine bind_congr fun filled => ?_
  have piles : (filled.map (Prod.map (Arm.rename f) (Stack.rename f))).map (·.2) =
      (filled.map (·.2)).map (Stack.rename f) := by
    rw [List.map_map, List.map_map]
    rfl
  have after : (filled.map (Prod.map (Arm.rename f) (Stack.rename f))).map (·.1) =
      (filled.map (·.1)).map (Arm.rename f) := by
    rw [List.map_map, List.map_map]
    rfl
  rw [piles, after, highest_rename]
  simp only [map_bind, map_pure]
  rfl

theorem toZone_rename (step : ZoneStep) :
    (step.rename f).toZone w = (step.toZone w).rename f := by
  have leaves : (step.armStacks.map (Stack.rename f)).flatMap (Stack.leaves w) =
      (step.armStacks.flatMap (Stack.leaves w)).map (Leaf.rename f) := by
    rw [List.flatMap_map, List.map_flatMap]
    exact List.flatMap_congr fun stack _ => stack.leaves_rename
  exact congrArg (Zone.mk step.size) leaves

end ZoneStep

namespace Storage

theorem placeZone_rename (target : Boundaries) (s : Storage) (zone : Alignment) :
    (s.rename f).placeZone w limit target zone = rename f <$> s.placeZone w limit target zone := by
  unfold placeZone
  show (if zone.isAligned s.start then _ else _) = _
  split
  · show ZoneStep.fill w limit zone s.start _ (s.arms.map (Arm.rename f)) >>= _ = _
    rw [ZoneStep.fill_rename, bind_map_left, map_bind]
    refine bind_congr fun step => congrArg Except.ok ?_
    simp only [rename, List.map_append]
    rfl
  · rfl

theorem place_rename (target : Boundaries) (arms : List Arm) :
    place w limit target (arms.map (Arm.rename f)) = rename f <$> place w limit target arms := by
  have placed : Alignment.descending.foldlM (placeZone w limit target)
      { arms := arms.map (Arm.rename f) } =
        rename f <$> Alignment.descending.foldlM (placeZone w limit target) { arms } := by
    have run (zones : List Alignment) := foldlM_comm (h := rename f) (g := id) { arms }
      (@placeZone_rename w limit f target) zones
    exact List.map_id Alignment.descending ▸ run Alignment.descending
  unfold place
  rw [placed, bind_map_left, map_bind]
  refine bind_congr fun s => ?_
  have left : (s.rename f).arms.find? (fun arm => !arm.pending.isEmpty) =
      (s.arms.find? fun arm => !arm.pending.isEmpty).map (Arm.rename f) := by
    rw [rename, List.find?_map]
    simp only [Function.comp_def, Arm.pending_rename, List.isEmpty_map]
  rw [left]
  cases s.arms.find? fun arm => !arm.pending.isEmpty with
  | some arm =>
    simp only [Option.map_some, Arm.pending_rename, List.length_map]
    rfl
  | none => rfl

theorem zone_rename (s : Storage) (a : Alignment) :
    (s.rename f).zone w a = (s.zone w a).rename f := by
  have found : (s.rename f).steps.find? (·.zone == a) =
      (s.steps.find? (·.zone == a)).map (ZoneStep.rename f) := List.find?_map
  unfold zone
  rw [found]
  cases s.steps.find? (·.zone == a) with
  | some step => exact step.toZone_rename
  | none => rfl

theorem zones_rename (s : Storage) : (s.rename f).zones w = (s.zones w).map (Zone.rename f) :=
  congrArg PerClass.ofFn (funext s.zone_rename)

end Storage

/-! ## Plans -/

namespace ZonePlan

theorem commonBoundary?_rename (zone : Alignment) (start lo : Nat) (common : Sums) (hi : Nat)
    (arms : List Arm) :
    commonBoundary? w zone start lo common hi (arms.map (Arm.rename f)) =
      commonBoundary? w zone start lo common hi arms := by
  induction arms generalizing common hi with
  | nil => rfl
  | cons arm rest ih =>
    rw [List.map_cons]
    unfold commonBoundary?
    rw [Arm.zoneSums_rename, ih]
    rfl

theorem exactBoundary?_rename (zone : Alignment) (start lo : Nat) (arms : List Arm) :
    exactBoundary? w zone start lo (arms.map (Arm.rename f)) =
      exactBoundary? w zone start lo arms := by
  cases arms with
  | nil => rfl
  | cons largest rest =>
    show (if _ < lo then none else commonBoundary? w zone start lo _ _ (rest.map _)) = _
    rw [Arm.zoneSums_rename, commonBoundary?_rename]
    rfl

namespace Progress

theorem close_rename (zone : Alignment) (boundary : Nat) (p : Progress) :
    (p.rename f).close w limit zone boundary = rename f <$> p.close w limit zone boundary := by
  unfold close
  show ZoneStep.fill w limit zone p.reached boundary (p.arms.map (Arm.rename f)) >>= _ = _
  rw [ZoneStep.fill_rename, bind_map_left, map_bind]
  refine bind_congr fun step => congrArg Except.ok ?_
  simp only [rename, ZonePlan.rename, List.map_append]
  rfl

theorem needs_rename (zone : Alignment) (p : Progress) :
    (p.rename f).needs w zone = p.needs w zone := by
  show (p.arms.map (Arm.rename f)).any _ = _
  rw [List.any_map]
  rfl

theorem leastEnd?_rename (zone : Alignment) (p : Progress) :
    (p.rename f).leastEnd? w zone = p.leastEnd? w zone := by
  have pending : (p.arms.map (Arm.rename f)).map (Arm.pendingBytes w (zone ≤ ·)) =
      p.arms.map (Arm.pendingBytes w (zone ≤ ·)) := by
    rw [List.map_map]
    exact List.map_congr_left fun arm _ => Arm.pendingBytes_rename _ arm
  unfold leastEnd?
  rw [← pending]
  rfl

end Progress

theorem search_rename (total : Nat) (zones : List Alignment) (p : Progress) :
    search w limit total zones (p.rename f) = rename f <$> search w limit total zones p := by
  induction zones generalizing p with
  | nil => rfl
  | cons zone rest ih =>
    have closes (boundary : Nat) (p : Progress) :
        ((p.rename f).close w limit zone boundary >>= search w limit total rest) =
          rename f <$> (p.close w limit zone boundary >>= search w limit total rest) := by
      rw [Progress.close_rename, bind_map_left, map_bind]
      exact bind_congr fun next => ih next
    have degrades (least : Nat) :
        { p.rename f with plan := (p.rename f).plan.degrade zone least } =
          Progress.rename f { p with plan := p.plan.degrade zone least } := by
      unfold degrade Progress.rename rename
      dsimp only
      split <;> rfl
    have found (least : Nat) :
        exactBoundary? w zone (p.rename f).reached least (p.rename f).arms =
          exactBoundary? w zone p.reached least p.arms :=
      exactBoundary?_rename zone p.reached least p.arms
    unfold search
    rw [Progress.needs_rename, Progress.leastEnd?_rename]
    split
    · rw [map_bind]
      refine bind_congr fun least => ?_
      dsimp only
      rw [found, degrades, show (p.rename f).plan.skipped = p.plan.skipped from rfl]
      cases if p.plan.skipped = true then none
        else exactBoundary? w zone p.reached least p.arms with
      | some boundary =>
        dsimp only
        split
        · rfl
        · exact closes boundary p
      | none => exact closes least { p with plan := p.plan.degrade zone least }
    · exact closes p.reached p

theorem ofArms_rename (arms : List Arm) :
    ofArms w limit (arms.map (Arm.rename f)) = rename f <$> ofArms w limit arms := by
  cases arms with
  | nil => rfl
  | cons largest others =>
    exact search_rename largest.required [.eight, .four, .two]
      { arms := largest :: others, plan := { skipped := limit < largest.required } }

end ZonePlan

/-! ## Resolutions -/

theorem byRequirement_rename (arms : List Arm) :
    byRequirement (arms.map (Arm.rename f)) = (byRequirement arms).map (Arm.rename f) :=
  (List.map_mergeSort (f := Arm.rename f) fun _ _ _ _ => rfl).symm

/-- A resolution of renamed arms is the renamed resolution. -/
theorem Resolution.ofArms_rename (arms : List Arm) :
    ofArms w limit (arms.map (Arm.rename f)) = rename f <$> ofArms w limit arms := by
  have largest : ((byRequirement arms).map (Arm.rename f)).head?.map (·.required) =
      (byRequirement arms).head?.map (·.required) := by
    rw [List.head?_map, Option.map_map]
    rfl
  unfold ofArms
  dsimp only
  rw [byRequirement_rename, ZonePlan.ofArms_rename, bind_map_left, map_bind, largest]
  refine bind_congr fun plan => ?_
  rw [show (plan.rename f).boundaries = plan.boundaries from rfl, Storage.place_rename,
    bind_map_left, map_bind]
  rfl

end PackedLayout
