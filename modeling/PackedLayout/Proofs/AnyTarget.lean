import Mathlib.Order.Bounds.Basic
import PackedLayout.Proofs.ArmPlaces
import PackedLayout.Proofs.Sufficiency

/-!
# Storage for any targets

Where zones are meant to end decides only how well they are filled. For any targets, in order or
not, the fields of some arms are placed soundly or do not fit into words:

- `Ranked`: some of the items of a queue, those of one class in the order of the queue;
- `Arm.Piles`, `Arm.piles_of_fill`: what an arm places in one zone;
- `Storage.Fills.piles`, `Storage.Fills.starts`: what all zones get, and where they are;
- `Storage.ensures_place_any`: so the storage of any arms is sound.
-/

namespace PackedLayout

variable {w : Width} {limit capacity : Nat} {zone a : Alignment} {zones : List Alignment}
  {arms : List Arm} {arm : Arm} {items queue : List Item}

/-! ## The order within a class -/

theorem filter_largestFirst (items : List Item) (a : Alignment) :
    (largestFirst items).filter (·.align == a) = items.filter (·.align == a) := by
  have class_ (b : Alignment) : (items.filter (·.align == b)).filter (·.align == a) =
      if b = a then items.filter (·.align == a) else [] := by
    rw [List.filter_filter]
    split
    · rename_i same
      simp [same]
    · rename_i differ
      apply List.filter_eq_nil_iff.mpr
      intro item _
      simp only [Bool.and_eq_true, beq_iff_eq]
      rintro ⟨rfl, rfl⟩
      exact differ rfl
  unfold largestFirst byClass
  rw [List.filter_flatMap]
  simp only [class_]
  cases a <;> simp [Alignment.descending]

/-- Items in descending order are in the order that they are sorted into. -/
theorem Descending.eq_largestFirst (ordered : Descending items) : largestFirst items = items := by
  induction items with
  | nil => rfl
  | cons item rest ih =>
    obtain ⟨first, ordered⟩ := List.pairwise_cons.mp ordered
    have none (a : Alignment) (larger : item.align < a) : rest.filter (·.align == a) = [] := by
      apply List.filter_eq_nil_iff.mpr
      intro other member
      have le := first other member
      simp only [beq_iff_eq]
      rintro rfl
      exact absurd larger (Nat.not_lt.mpr le)
    have front : largestFirst (item :: rest) = item :: largestFirst rest := by
      unfold largestFirst byClass Alignment.descending
      cases class_ : item.align <;> rw [class_] at none
      · simp [class_]
      · simp [class_, none .eight (by decide)]
      · simp [class_, none .eight (by decide), none .four (by decide)]
      · simp [class_, none .eight (by decide), none .four (by decide), none .two (by decide)]
    rw [front, ih ordered]

/-- Some of the items of a queue, those of one class in the order of the queue. -/
def Ranked (items queue : List Item) : Prop :=
  ∀ a, (items.filter (·.align == a)).Sublist (queue.filter (·.align == a))

theorem Ranked.trans {others : List Item} (h : Ranked items queue) (h' : Ranked queue others) :
    Ranked items others :=
  fun a => (h a).trans (h' a)

/-- Parts of the classes of a queue are the classes of one part of it. -/
theorem exists_sublist_of_classes (f : Alignment → List Item)
    (each : ∀ a, (f a).Sublist (queue.filter (·.align == a))) :
    ∃ taken : List Item, taken.Sublist queue ∧ ∀ a, taken.filter (·.align == a) = f a := by
  induction queue generalizing f with
  | nil =>
    refine ⟨[], List.Sublist.refl _, fun a => ?_⟩
    have none := each a
    rw [List.filter_nil, List.sublist_nil] at none
    rw [none, List.filter_nil]
  | cons item rest ih =>
    have other {a : Alignment} (differ : item.align ≠ a) :
        (item :: rest).filter (·.align == a) = rest.filter (·.align == a) := by simp [differ]
    have here := each item.align
    rw [List.filter_cons_of_pos (by simp)] at here
    obtain left | ⟨part, taken, behind⟩ := List.sublist_cons_iff.mp here
    · obtain ⟨taken, own, classes⟩ := ih f fun a => by
        by_cases same : item.align = a
        · exact same ▸ left
        · exact other same ▸ each a
      exact ⟨taken, own.cons item, classes⟩
    · obtain ⟨others, own, classes⟩ := ih (Function.update f item.align part) fun a => by
        by_cases same : item.align = a
        · subst same
          rwa [Function.update_self]
        · rw [Function.update_of_ne (Ne.symm same)]
          exact other same ▸ each a
      refine ⟨item :: others, own.cons_cons item, fun a => ?_⟩
      by_cases same : item.align = a
      · subst same
        rw [List.filter_cons_of_pos (by simp), classes, Function.update_self, taken]
      · rw [List.filter_cons_of_neg (by simp [same]), classes, Function.update_of_ne (Ne.symm same)]

/-- Ranked items in descending order are a part of the queue, sorted by class. -/
theorem Ranked.exists_taken (ranked : Ranked items queue) (ordered : Descending items) :
    ∃ taken : List Item, taken.Sublist queue ∧ items = largestFirst taken := by
  obtain ⟨taken, own, classes⟩ := exists_sublist_of_classes _ ranked
  refine ⟨taken, own, ?_⟩
  conv_lhs => rw [← ordered.eq_largestFirst]
  unfold largestFirst byClass
  simp only [classes]

/-! ## One arm in one zone -/

namespace Arm

variable {stack : Stack}

/-- What an arm piles up in a zone: some of its fields, from the bottom of the zone up. -/
structure Piles (zone : Alignment) (arm : Arm) (stack : Stack) : Prop where
  ranked : Ranked stack.items arm.pending
  below : ∀ item ∈ stack.items, item.align ≤ zone
  ordered : Descending stack.items
  compact : stack.Compact

theorem Piles.mono {after : Arm} (piles : after.Piles zone stack)
    (ranked : Ranked after.pending arm.pending) : arm.Piles zone stack :=
  ⟨piles.ranked.trans ranked, piles.below, piles.ordered, piles.compact⟩

theorem filter_optional (zone : Alignment) (arm : Arm) (a : Alignment) :
    (arm.optional zone).filter (·.align == a) =
      if a = zone then [] else arm.pending.filter (·.align == a) := by
  rw [optional, filter_largestFirst, List.filter_filter]
  by_cases same : a = zone
  · rw [if_pos same]
    apply List.filter_eq_nil_iff.mpr
    intro item _
    simp [same]
  · rw [if_neg same]
    apply List.filter_congr
    intro item _
    by_cases class_ : item.align = a
    · simp [class_, same]
    · simp [class_]

/-- The fields of the class and some of the optional ones are ranked. -/
theorem ranked_picked (mask : List Bool) : Ranked (arm.picked zone mask) arm.pending := by
  intro a
  have classes := (chosen_sublist (arm.optional zone) mask).filter (·.align == a)
  rw [filter_optional] at classes
  rw [picked, List.filter_append, mandatory, List.filter_filter]
  by_cases same : a = zone
  · subst same
    rw [if_pos rfl] at classes
    simp [List.sublist_nil.mp classes]
  · rw [if_neg same] at classes
    have none : (arm.pending.filter fun item => item.align == a && item.align == zone) = [] := by
      apply List.filter_eq_nil_iff.mpr
      intro item _
      simp only [Bool.and_eq_true, beq_iff_eq]
      rintro ⟨rfl, here⟩
      exact same here
    rw [none, List.nil_append]
    exact classes

/-- An arm piles up some of its fields in a zone, and the others stay as they are ranked. -/
theorem piles_of_fill {r : Arm × Stack} (below : arm.Below zone)
    (filled : arm.fill w limit zone capacity = .ok r) :
    arm.Piles zone r.2 ∧ Ranked r.1.pending arm.pending := by
  have own := (ensures_fill below).of_ok filled
  by_cases fits : w.Fits (exactSize arm.pending)
  · obtain ⟨mask, _, done⟩ := exists_fill limit capacity below fits
    obtain rfl := Except.ok.inj (done.symm.trans filled)
    refine ⟨⟨?_, own.below, own.ordered, own.compact⟩, fun a => ?_⟩
    · rw [items_pile]
      exact ranked_picked mask
    · exact (arm.left_sublist zone mask).filter _
  · rw [fill_of_not_fits below fits] at filled
    contradiction

end Arm

/-! ## All zones -/

theorem exists_right_of_getElem? {α β : Type} {r : α → β → Prop} {xs : List α} {ys : List β}
    (related : List.Forall₂ r xs ys) {k : Nat} {x : α} (here : xs[k]? = some x) :
    ∃ y, ys[k]? = some y ∧ r x y := by
  obtain ⟨inside, rfl⟩ := List.getElem?_eq_some_iff.mp here
  have there : k < ys.length := related.length_eq ▸ inside
  exact ⟨ys[k], List.getElem?_eq_getElem there, (List.forall₂_iff_get.mp related).2 k inside there⟩

/-- What the arm at position `k` places in a step. -/
def ZoneStep.itemsOf (step : ZoneStep) (k : Nat) : List Item :=
  (step.armStacks[k]?.getD {}).items

namespace Storage

variable {s last : Storage} {target : Boundaries} {steps : List ZoneStep}

/-- The zones that are filled from some storage on get all fields that its arms have left, and every
arm piles up its own in each of them. -/
theorem Fills.piles (fills : Fills w limit target zones s steps last)
    (placing : Placing w arms zones s) {k : Nat} {now : Arm} (here : s.arms[k]? = some now) :
    (steps.flatMap fun step => step.itemsOf k).Perm now.pending ∧
      ∀ step ∈ steps, ∃ stack, step.armStacks[k]? = some stack ∧ now.Piles step.zone stack := by
  induction fills generalizing now with
  | nil =>
    refine ⟨?_, nofun⟩
    obtain ⟨_, _, within, _⟩ := exists_left_of_mem placing.left (List.mem_of_getElem? here)
    rw [Arm.pending_eq_nil within]
    exact List.Perm.refl _
  | @cons zone rest s last step steps filled others ih =>
    have further := placing.fill filled
    obtain ⟨results, size, stop, each, _, _, rfl⟩ := ZoneStep.fill_eq_ok.mp filled
    obtain ⟨r, there, own⟩ := exists_right_of_getElem? each here
    have below := placing.below now (List.mem_of_getElem? here)
    have fill := (Arm.ensures_fill below).of_ok own
    obtain ⟨piles, ranked⟩ := Arm.piles_of_fill below own
    have stack : (results.map (·.2))[k]? = some r.2 := by rw [List.getElem?_map, there]; rfl
    obtain ⟨all, later⟩ := ih further (by rw [List.getElem?_map, there]; rfl)
    constructor
    · rw [List.flatMap_cons, ZoneStep.itemsOf, stack]
      exact (all.append_left _).trans fill.perm
    · intro other member
      obtain rfl | behind := List.mem_cons.mp member
      · exact ⟨r.2, stack, piles⟩
      · obtain ⟨stack, own, piles⟩ := later other behind
        exact ⟨stack, own, piles.mono ranked⟩

/-- Every zone starts behind the sizes of the ones before it, and ends behind its own. -/
theorem Fills.starts (fills : Fills w limit target zones s steps last)
    (placing : Placing w arms zones s) {before behind : List ZoneStep} {other : ZoneStep}
    (split : steps = before ++ other :: behind) :
    other.start = s.start + exactSum (before.map (·.size)) ∧
      last.ends.boundary other.zone = other.start + other.size := by
  induction fills generalizing before with
  | nil => simp at split
  | @cons zone rest s last step steps filled others ih =>
    have further := placing.fill filled
    obtain ⟨sound, here, began, _⟩ := (ZoneStep.ensures_fillZone placing.below).of_ok filled
    have kept := (others.ends further).2
    cases before with
    | nil =>
      obtain ⟨rfl, rfl⟩ := List.cons.inj split
      have fresh : zone ∉ rest := fun again =>
        Nat.lt_irrefl _ ((List.pairwise_cons.mp placing.ordered).1 zone again)
      rw [here, kept zone fresh, Boundaries.boundary_setBoundary, if_pos rfl]
      exact ⟨began, sound.stop_eq⟩
    | cons head before =>
      obtain ⟨rfl, tail⟩ := List.cons.inj split
      obtain ⟨start, ends⟩ := ih further tail
      refine ⟨?_, ends⟩
      rw [start, sound.stop_eq, began, List.map_cons, exactSum_cons, Nat.add_assoc]

/-- What the storage of some arms is like, for any targets. -/
structure Packed (w : Width) (arms : List Arm) (s : Storage) : Prop where
  /-- There is a zone for each class. -/
  zones : s.steps.map (·.zone) = Alignment.descending
  /-- Every field of every arm is placed once. -/
  once : ∀ (k : Nat) arm, arms[k]? = some arm →
    (s.steps.flatMap fun step => step.itemsOf k).Perm arm.pending
  /-- In each zone, an arm has some of its fields, from the zone's own class or smaller ones. They
  lie back to back from the start of the zone, in descending order of class and then in the order
  of the arm, each at a multiple of its class. -/
  piles : ∀ step ∈ s.steps, ∀ (k : Nat) arm, arms[k]? = some arm →
    ∃ stack taken, step.armStacks[k]? = some stack ∧ taken.Sublist arm.pending ∧
      stack.items = largestFirst taken ∧ (∀ item ∈ stack.items, item.align ≤ step.zone) ∧
      stack.placed.reverse = backToBack 0 stack.items ∧ stack.height = exactSize stack.items ∧
      ∀ at_ ∈ stack.placed, at_.2.align.bytes ∣ at_.1
  /-- A zone is as large as the highest stack in it, in whole units of its class. -/
  sizes : ∀ step ∈ s.steps, step.armStacks.length = arms.length ∧
    IsLeast {n | step.zone.bytes ∣ n ∧ ∀ stack ∈ step.armStacks, stack.height ≤ n} step.size
  /-- A zone starts behind the sizes of the ones before it. -/
  starts : ∀ before step behind, s.steps = before ++ step :: behind →
    step.start = exactSum (before.map (·.size)) ∧
      s.ends.boundary step.zone = step.start + step.size
  /-- A zone has the slots of the fields in it as its members. -/
  members : ∀ step ∈ s.steps, (s.zone w step.zone).size = step.size ∧
    ((s.zone w step.zone).leaves.map (·.slot)).Perm
      ((step.items.flatMap (·.leaves)).map (·.slot))

/-- For any targets, the fields of any arms are placed soundly, or do not fit. -/
theorem ensures_place_any (w : Width) (limit : Nat) (target : Boundaries)
    (whole : ∀ arm ∈ arms, ∀ item ∈ arm.pending, item.Whole) :
    Ensures (· = .overflow) (Packed w arms) (place w limit target arms) := by
  cases placed : place w limit target arms with
  | error e => exact (ensures_place w limit target arms).of_error placed
  | ok s =>
    have sound := (ensures_place w limit target arms).of_ok placed
    have fills := fills_of_start (placeZones_of_place placed)
    have start := Placing.start w arms
    refine ⟨sound.zones, fun k arm here => (fills.piles start here).1, ?_, ?_, ?_, ?_⟩
    · intro step member k arm here
      obtain ⟨stack, own, pile⟩ := (fills.piles start here).2 step member
      obtain ⟨taken, part, items⟩ := pile.ranked.exists_taken pile.ordered
      refine ⟨stack, taken, own, part, items, pile.below, pile.compact.placed,
        pile.compact.height, ?_⟩
      intro at_ placed
      apply Stack.bytes_dvd_of_mem_placed pile.compact _ pile.ordered placed
      intro item listed
      rw [items] at listed
      exact whole arm (List.mem_of_getElem? here) item
        (part.mem ((largestFirst_perm taken).mem_iff.mp listed))
    · intro step member
      obtain ⟨sound, own⟩ := sound.steps step member
      refine ⟨own.length_eq.symm, ⟨sound.size_dvd, sound.height_le⟩, ?_⟩
      rintro n ⟨aligned, above⟩
      exact sound.least n above aligned
    · intro before step behind split
      obtain ⟨start, ends⟩ := fills.starts start split
      rw [Nat.zero_add] at start
      exact ⟨start, ends⟩
    · intro step member
      have zone : s.zone w step.zone = step.toZone w := by
        rw [← (sound.get_zones member).1, zones, PerClass.get_ofFn]
      rw [zone]
      refine ⟨rfl, ?_⟩
      unfold ZoneStep.toZone ZoneStep.items
      rw [List.map_flatMap, List.flatMap_assoc, List.map_flatMap]
      exact List.Perm.flatMap_left _ fun stack _ => stack.slots_leaves w

/-- An arm with fields of 4, 3 and 8 bytes. -/
def triple : Arm := ⟨0, .empty, 0, [some ⟨4, .four, []⟩, some ⟨3, .one, []⟩, some ⟨8, .eight, []⟩]⟩

/-- Targets that are out of order: the first zone takes fields of 8 and 4 bytes and has 4 bytes of
padding, and the last one takes the 3 bytes that are left. -/
theorem ensures_place_any_unordered :
    ∃ s, place .bits64 64 ⟨⟨12, 8, 0, 4⟩⟩ [triple] = .ok s ∧ s.ends = ⟨⟨16, 16, 16, 19⟩⟩ ∧
      s.Packed .bits64 [triple] := by
  obtain ⟨s, placed, ends⟩ : ∃ s, place .bits64 64 ⟨⟨12, 8, 0, 4⟩⟩ [triple] = .ok s ∧
      s.ends = ⟨⟨16, 16, 16, 19⟩⟩ := ⟨_, by rfl, by rfl⟩
  refine ⟨s, placed, ends, (ensures_place_any .bits64 64 _ ?_).of_ok placed⟩
  intro arm member item listed
  have whole : 0 < item.size ∧ item.align.bytes ∣ item.size := by
    revert arm item
    decide
  exact ⟨whole.1, whole.2⟩

end Storage

end PackedLayout
