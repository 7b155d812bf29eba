import Mathlib.Data.List.Perm.Basic
import PackedLayout.Engine.Draft
import PackedLayout.Proofs.Placement
import PackedLayout.Proofs.Realizing

/-!
# Zones as items

A body stacks its items by class, and a variant stacks the items of its arms on top of one
another. Either way a zone that is not empty is one item for what is around it:

- `Stacked.fits`: stacks of one zone are a group of items that fits;
- `Realizes.body`: the zones of a body realize the parts of the items put into it;
- `Realizes.storage`: so do the zones of a variant, for the items of its arms.
-/

namespace PackedLayout

variable {w : Width} {packs : Array Pack} {first base : Nat} {parts : List Part}

/-- No item has a leaf that begins behind its end, so moving the leaves wraps nowhere. -/
theorem Stack.leaves_eq {stack : Stack} (compact : stack.Compact) (fits : w.Fits stack.height)
    (within : ∀ item ∈ stack.items, ∀ leaf ∈ item.leaves, leaf.offset ≤ item.size) :
    stack.leaves w = Legend.mergedLeaves stack.placed := by
  apply List.flatMap_congr
  intro p placed
  obtain ⟨listed, inside⟩ := Stack.mem_placed compact placed
  apply List.map_congr_left
  intro leaf inner
  have le := within p.2 listed leaf inner
  have exact_ : w.wrap (leaf.offset + p.1) = leaf.offset + p.1 := (fits.mono (by omega)).wrap
  show { leaf with offset := w.wrap (leaf.offset + p.1) } = _
  rw [exact_]
  rfl

/-! ## Stacks in one zone -/

/-- Stacks that share a zone: each lies back to back in descending order, and leaves of different
stacks are in different arms. -/
structure Stacked (g : Legend) (size : Nat) (align : Alignment) (piles : List Stack) : Prop where
  compact : ∀ stack ∈ piles, stack.Compact
  ordered : ∀ stack ∈ piles, Descending stack.items
  whole : ∀ stack ∈ piles, ∀ item ∈ stack.items, item.Whole
  align_le : ∀ stack ∈ piles, ∀ item ∈ stack.items, item.align ≤ align
  height_le : ∀ stack ∈ piles, stack.height ≤ size
  size_dvd : align.bytes ∣ size
  divided : piles.Pairwise fun s t => ∀ a ∈ s.items, ∀ b ∈ t.items, ∀ l ∈ a.leaves,
    ∀ m ∈ b.leaves, g.Divided l m

/-- The items of the stacks with their offsets. -/
def Stacked.group (size : Nat) (align : Alignment) (piles : List Stack) : Group :=
  ⟨size, align, piles.flatMap (·.placed)⟩

theorem Stacked.fits {g : Legend} {size : Nat} {align : Alignment} {piles : List Stack}
    (h : Stacked g size align piles) (pos : 0 < size) :
    (Stacked.group size align piles).Fits g where
  whole := ⟨pos, h.size_dvd⟩
  align_le := by
    intro p piece
    obtain ⟨stack, member, placed⟩ := List.mem_flatMap.mp piece
    exact h.align_le stack member p.2 (Stack.mem_placed (h.compact stack member) placed).1
  aligned := by
    intro p piece
    obtain ⟨stack, member, placed⟩ := List.mem_flatMap.mp piece
    exact Stack.bytes_dvd_of_mem_placed (h.compact stack member) (h.whole stack member)
      (h.ordered stack member) placed
  inside := by
    intro p piece
    obtain ⟨stack, member, placed⟩ := List.mem_flatMap.mp piece
    exact Nat.le_trans (Stack.mem_placed (h.compact stack member) placed).2
      (h.height_le stack member)
  away := by
    refine List.pairwise_flatMap.mpr ⟨fun stack member => ?_, ?_⟩
    · exact (Stack.pairwise_placed (h.compact stack member)).imp fun below => .inr (.inl below)
    · refine h.divided.imp_of_mem fun member member' apart p placed q placed' => ?_
      exact .inr (.inr (apart p.2 (Stack.mem_placed (h.compact _ member) placed).1 q.2
        (Stack.mem_placed (h.compact _ member') placed').1))

/-- Stacks in an empty zone hold nothing. -/
theorem Stacked.items_eq_nil {g : Legend} {align : Alignment} {piles : List Stack}
    (h : Stacked g 0 align piles) : piles.flatMap Stack.items = [] := by
  apply List.flatMap_eq_nil_iff.mpr
  intro stack member
  have flat := h.height_le stack member
  rw [(h.compact stack member).height] at flat
  exact eq_nil_of_exactSize (h.whole stack member) (Nat.le_zero.mp flat)

theorem Stacked.perm_items {piles : List Stack} {size : Nat} {align : Alignment} :
    ((Stacked.group size align piles).pieces.map (·.2)).Perm (piles.flatMap Stack.items) := by
  show ((piles.flatMap (·.placed)).map _).Perm _
  rw [List.map_flatMap]
  exact List.Perm.flatMap_left piles fun stack _ => (List.reverse_perm _).symm

/-- One stack of items of one class fills a zone of the class. -/
theorem Stacked.single {g : Legend} {align : Alignment} {stack : Stack} (compact : stack.Compact)
    (whole : ∀ item ∈ stack.items, item.Whole) (only : ∀ item ∈ stack.items, item.align = align) :
    Stacked g stack.height align [stack] where
  compact := List.forall_mem_singleton.mpr compact
  ordered := by
    refine List.forall_mem_singleton.mpr (List.pairwise_of_forall_mem_list fun x hx y hy => ?_)
    rw [only x hx, only y hy]
    exact align.le_refl
  whole := List.forall_mem_singleton.mpr whole
  align_le := List.forall_mem_singleton.mpr fun item inner =>
    Nat.le_of_eq (congrArg Alignment.bytes (only item inner))
  height_le := List.forall_mem_singleton.mpr (Nat.le_refl _)
  size_dvd := by
    rw [compact.height]
    exact dvd_exactSize fun item inner => only item inner ▸ (whole item inner).size_dvd
  divided := List.pairwise_singleton _ _

/-- The zones that are not empty, each as an item of its class. -/
def zoneItems (zones : PerClass Zone) (classes : List Alignment) : List Item :=
  (classes.filter fun a => (zones.get a).size != 0).map fun a => (zones.get a).toItem a

theorem zoneItems_cons (zones : PerClass Zone) (a : Alignment) (classes : List Alignment) :
    zoneItems zones (a :: classes) =
      if (zones.get a).size = 0 then zoneItems zones classes
      else (zones.get a).toItem a :: zoneItems zones classes := by
  unfold zoneItems
  by_cases empty : (zones.get a).size = 0
  · simp [empty]
  · simp [empty]

/-- Zones whose stacks hold all the items there are realize the same parts. -/
theorem Realizes.zones {items : List Item} {zones : PerClass Zone}
    (h : Realizes packs first base parts items) (piles : Alignment → List Stack)
    (perm : (Alignment.descending.flatMap fun a => (piles a).flatMap Stack.items).Perm items)
    (stacked : ∀ a, Stacked (Legend.of packs base parts) (zones.get a).size a (piles a))
    (leaves : ∀ a, (zones.get a).leaves = Legend.mergedLeaves ((piles a).flatMap (·.placed))) :
    Realizes packs first base parts (zoneItems zones Alignment.descending) := by
  have merged := h.merge ((Alignment.descending.filter
      fun a => (zones.get a).size != 0).map
        fun a => Stacked.group (zones.get a).size a (piles a)) ?_ ?_
  · rw [List.map_map] at merged
    have same : zoneItems zones Alignment.descending = (Alignment.descending.filter
        fun a => (zones.get a).size != 0).map
          (Group.toItem ∘ fun a => Stacked.group (zones.get a).size a (piles a)) := by
      apply List.map_congr_left
      intro a _
      show Item.mk (zones.get a).size a (zones.get a).leaves = _
      rw [leaves a]
      rfl
    rwa [same]
  · refine List.Perm.trans ?_ perm
    rw [List.flatMap_map]
    have each (classes : List Alignment) :
        ((classes.filter fun a => (zones.get a).size != 0).flatMap fun a =>
          (Stacked.group (zones.get a).size a (piles a)).pieces.map (·.2)).Perm
            (classes.flatMap fun a => (piles a).flatMap Stack.items) := by
      induction classes with
      | nil => exact List.Perm.refl _
      | cons a classes ih =>
        by_cases empty : (zones.get a).size = 0
        · have none : (piles a).flatMap Stack.items = [] :=
            Stacked.items_eq_nil (empty ▸ stacked a)
          rw [List.filter_cons_of_neg (by simp [empty]), List.flatMap_cons, none, List.nil_append]
          exact ih
        · rw [List.filter_cons_of_pos (by simp [empty]), List.flatMap_cons, List.flatMap_cons]
          exact Stacked.perm_items.append ih
    exact each _
  · intro group member
    obtain ⟨a, listed, rfl⟩ := List.mem_map.mp member
    have nonempty := (List.mem_filter.mp listed).2
    exact (stacked a).fits (Nat.pos_of_ne_zero (by simpa using nonempty))

/-! ## Bodies -/

/-- The zones of a body hold a stack for each class. -/
def Holds (w : Width) (zones : PerClass Zone) (piles : Alignment → Stack) : Prop :=
  ∀ a, zones.get a = ⟨(piles a).height, (piles a).leaves w⟩

/-- Putting an item into a body pushes it onto the stack of its class. -/
theorem Holds.put? {zones : PerClass Zone} {piles : Alignment → Stack} {item : Item}
    {next : Container} (h : Holds w zones piles)
    (put : (Container.body zones).put? w item = some next) :
    ∃ pushed zones', (piles item.align).push? w item = some pushed ∧ next = .body zones' ∧
      Holds w zones' fun a => if item.align = a then pushed else piles a := by
  obtain ⟨zone, pushed, rfl⟩ := Option.map_eq_some_iff.mp put
  obtain ⟨size, fits, rfl⟩ := Option.map_eq_some_iff.mp pushed
  rw [h item.align] at fits ⊢
  refine ⟨⟨size, ((piles item.align).height, item) :: (piles item.align).placed⟩, _, ?_, rfl,
    fun a => ?_⟩
  · unfold Stack.push?
    rw [fits]
    rfl
  · rw [PerClass.get_set]
    by_cases here : item.align = a
    · simp only [if_pos here]
      rfl
    · simp only [if_neg here]
      exact h a

theorem Holds.foldlM_put? {zones : PerClass Zone} (piles : Alignment → Stack) {items : List Item}
    {last : Container} (h : Holds w zones piles)
    (put : items.foldlM (fun container item => container.put? w item) (.body zones) =
      some last) :
    ∃ piles', Holds w last.zones piles' ∧
      ∀ a, (items.filter (·.align == a)).foldlM (Stack.push? w) (piles a) =
        some (piles' a) := by
  induction items generalizing zones piles with
  | nil =>
    cases put
    exact ⟨piles, h, fun _ => rfl⟩
  | cons item rest ih =>
    rw [List.foldlM_cons] at put
    obtain ⟨_, first, put⟩ := Option.bind_eq_some_iff.mp put
    obtain ⟨pushed, _, grown, rfl, held⟩ := h.put? first
    obtain ⟨piles', held, each⟩ := ih _ held put
    refine ⟨piles', held, fun a => ?_⟩
    have own := each a
    by_cases here : item.align = a
    · rw [if_pos here] at own
      rw [here] at grown
      rw [List.filter_cons_of_pos (by simp [here]), List.foldlM_cons, grown]
      exact own
    · rw [if_neg here] at own
      rw [List.filter_cons_of_neg (by simp [here])]
      exact own

/-- The zones of a body realize the parts of the items put into it. They are whole, and without a
size they have no leaves. -/
theorem Realizes.body {items : List Item} {last : Container}
    (h : Realizes packs first base parts items)
    (put : items.foldlM (fun container item => container.put? w item) .emptyBody = some last) :
    Realizes packs first base parts (zoneItems last.zones Alignment.descending) ∧
      ∀ a, a.bytes ∣ (last.zones.get a).size ∧
        ((last.zones.get a).size = 0 → (last.zones.get a).leaves = []) := by
  obtain ⟨piles, held, each⟩ := Holds.foldlM_put? (fun _ => {})
    (fun a => by cases a <;> rfl) put
  have content (a : Alignment) : (piles a).items = items.filter (·.align == a) :=
    Stack.items_of? (w := w) (each a)
  have compact (a : Alignment) : (piles a).Compact := Stack.compact_of? (w := w) (each a)
  have fits (a : Alignment) : w.Fits (piles a).height := by
    obtain ⟨fits, same⟩ := Stack.of?_eq_some.mp (each a)
    rw [same]
    exact fits
  have member {a : Alignment} {item : Item} (inner : item ∈ (piles a).items) :
      item ∈ items ∧ item.align = a := by
    rw [content a] at inner
    exact ⟨(List.mem_filter.mp inner).1, by simpa using (List.mem_filter.mp inner).2⟩
  have stacked (a : Alignment) :
      Stacked (Legend.of packs base parts) (last.zones.get a).size a [piles a] := by
    rw [held a]
    exact Stacked.single (compact a) (fun item inner => (h.sound item (member inner).1).whole)
      fun item inner => (member inner).2
  have leaves (a : Alignment) :
      (last.zones.get a).leaves = Legend.mergedLeaves ([piles a].flatMap (·.placed)) := by
    rw [held a, List.flatMap_singleton]
    exact Stack.leaves_eq (compact a) (fits a) fun item inner leaf listed =>
      ((h.sound item (member inner).1).arranged.lies leaf listed).offset_le
  refine ⟨h.zones (fun a => [piles a]) ?_ stacked leaves, fun a => ⟨?_, fun flat => ?_⟩⟩
  · simp only [List.flatMap_singleton, content]
    exact largestFirst_perm items
  · exact (stacked a).size_dvd
  · have none := (flat ▸ stacked a).items_eq_nil
    rw [List.flatMap_singleton, Stack.items, List.reverse_eq_nil_iff, List.map_eq_nil_iff] at none
    rw [leaves a, List.flatMap_singleton, none]
    rfl

/-! ## Storages -/

theorem find?_zone {steps : List ZoneStep} (distinct : (steps.map (·.zone)).Nodup)
    {step : ZoneStep} (member : step ∈ steps) :
    steps.find? (·.zone == step.zone) = some step := by
  induction steps with
  | nil => exact absurd member List.not_mem_nil
  | cons other rest ih =>
    rw [List.map_cons] at distinct
    obtain ⟨fresh, distinct⟩ := List.nodup_cons.mp distinct
    obtain rfl | later := List.mem_cons.mp member
    · exact List.find?_cons_of_pos (beq_self_eq_true _)
    · have differ : other.zone ≠ step.zone := fun same =>
        fresh (same ▸ List.mem_map_of_mem later)
      rw [List.find?_cons_of_neg (by simp [differ])]
      exact ih distinct later

/-- The stacks of a zone of the storage. -/
def Storage.stacksOf (s : Storage) (a : Alignment) : List Stack :=
  ((s.steps.find? (·.zone == a)).map (·.armStacks)).getD []

namespace Storage.Sound

variable {arms : List Arm} {s : Storage} {step : ZoneStep}

theorem nodup (sound : s.Sound w arms) : (s.steps.map (·.zone)).Nodup := by
  rw [sound.zones]
  decide

theorem get_zones (sound : s.Sound w arms) (member : step ∈ s.steps) :
    (s.zones w).get step.zone = step.toZone w ∧ s.stacksOf step.zone = step.armStacks := by
  have found := find?_zone sound.nodup member
  unfold Storage.zones Storage.zone Storage.stacksOf
  rw [PerClass.get_ofFn, found]
  exact ⟨rfl, rfl⟩

/-- Every class has a zone in the storage. -/
theorem exists_step (sound : s.Sound w arms) (a : Alignment) : ∃ step ∈ s.steps, step.zone = a := by
  have listed : a ∈ s.steps.map (·.zone) := sound.zones ▸ a.mem_descending
  exact List.mem_map.mp listed

theorem flatMap_stacks (sound : s.Sound w arms) :
    (Alignment.descending.flatMap fun a => (s.stacksOf a).flatMap Stack.items) =
      s.steps.flatMap ZoneStep.items := by
  rw [← sound.zones, List.flatMap_map]
  exact List.flatMap_congr fun step member => by rw [(sound.get_zones member).2]; rfl

end Storage.Sound

/-- A step that fills a zone for arms whose fields are never live together stacks them. -/
theorem ZoneStep.Sound.stacked {step : ZoneStep} {g : Legend} {arms : List Arm}
    (sound : step.Sound w) (own : Storage.FromArms arms step)
    (whole : ∀ arm ∈ arms, ∀ item ∈ arm.pending, item.Whole)
    (divided : arms.Pairwise fun a b => ∀ x ∈ a.pending, ∀ y ∈ b.pending, ∀ l ∈ x.leaves,
      ∀ m ∈ y.leaves, g.Divided l m) :
    Stacked g step.size step.zone step.armStacks := by
  obtain ⟨results, _, piles, filled⟩ := sound.filled
  have each (stack : Stack) (member : stack ∈ step.armStacks) :
      ∃ before after, Arm.Filled step.zone before after stack := by
    rw [piles] at member
    obtain ⟨r, listed, rfl⟩ := List.mem_map.mp member
    obtain ⟨before, _, own⟩ := exists_left_of_mem filled listed
    exact ⟨before, r.1, own⟩
  have origin (stack : Stack) (member : stack ∈ step.armStacks) :
      ∃ arm ∈ arms, ∀ item ∈ stack.items, item ∈ arm.pending := exists_left_of_mem own member
  refine ⟨fun stack member => ?_, fun stack member => ?_, fun stack member item inner => ?_,
    fun stack member => ?_, sound.height_le, sound.size_dvd, ?_⟩
  · obtain ⟨_, _, filled⟩ := each stack member
    exact filled.compact
  · obtain ⟨_, _, filled⟩ := each stack member
    exact filled.ordered
  · obtain ⟨arm, listed, from_⟩ := origin stack member
    exact whole arm listed item (from_ item inner)
  · obtain ⟨_, _, filled⟩ := each stack member
    exact filled.below
  · exact pairwise_of_forall₂ (fun a s b t apart here there x hx y hy => apart x (here x hx) y
      (there y hy)) own divided

/-- The zones of a variant realize the parts of the fields of its arms. -/
theorem Realizes.storage {arms : List Arm} {s : Storage}
    (h : Realizes packs first base parts (arms.flatMap (·.pending))) (sound : s.Sound w arms)
    (divided : arms.Pairwise fun a b => ∀ x ∈ a.pending, ∀ y ∈ b.pending, ∀ l ∈ x.leaves,
      ∀ m ∈ y.leaves, (Legend.of packs base parts).Divided l m) :
    Realizes packs first base parts (zoneItems (s.zones w) Alignment.descending) := by
  have stacked (step : ZoneStep) (member : step ∈ s.steps) :
      Stacked (Legend.of packs base parts) step.size step.zone step.armStacks := by
    obtain ⟨filled, own⟩ := sound.steps step member
    exact filled.stacked own (fun arm listed item inner =>
      (h.sound item (List.mem_flatMap.mpr ⟨arm, listed, inner⟩)).whole) divided
  refine h.zones s.stacksOf ?_ (fun a => ?_) fun a => ?_
  · rw [sound.flatMap_stacks]
    exact sound.perm
  · obtain ⟨step, member, rfl⟩ := sound.exists_step a
    rw [(sound.get_zones member).1, (sound.get_zones member).2]
    exact stacked step member
  · obtain ⟨step, member, rfl⟩ := sound.exists_step a
    rw [(sound.get_zones member).1, (sound.get_zones member).2]
    have content := stacked step member
    have fits : w.Fits step.size := by
      have stop := (sound.steps step member).1.fits
      rw [(sound.steps step member).1.stop_eq] at stop
      exact stop.mono (Nat.le_add_left _ _)
    have merged : Legend.mergedLeaves (step.armStacks.flatMap (·.placed)) =
        step.armStacks.flatMap fun stack => Legend.mergedLeaves stack.placed := by
      unfold Legend.mergedLeaves
      rw [List.flatMap_assoc]
    rw [merged]
    refine List.flatMap_congr fun stack listed => Stack.leaves_eq (content.compact stack listed)
      (fits.mono (content.height_le stack listed)) fun item inner leaf inside => ?_
    have placed : item ∈ arms.flatMap (·.pending) := by
      refine sound.perm.mem_iff.mp (List.mem_flatMap.mpr ⟨step, member, ?_⟩)
      exact List.mem_flatMap.mpr ⟨stack, listed, inner⟩
    exact ((h.sound item placed).arranged.lies leaf inside).offset_le

end PackedLayout
