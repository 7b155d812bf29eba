import PackedLayout.Proofs.Shuffling

/-!
# What an arm places

The leaves that an arm places in a zone depend on its own fields and on the room in the zones, but
not on the other arms:

- `Arm.leavesIn`: the leaves of an arm in the zone of a class;
- `Storage.leaves_zone`: a zone holds what every arm places there;
- `Arm.slots_leavesIn`: an arm places every one of its leaves in one zone.
-/

namespace PackedLayout

variable {w : Width} {limit capacity start boundary : Nat} {zone a : Alignment} {arm : Arm}
  {arms : List Arm}

/-- The leaves that an arm places in the zone of a class, given the room in the zones. -/
def Arm.leavesIn (w : Width) (limit : Nat) (a : Alignment) :
    List (Alignment × Nat) → Arm → List Leaf
  | [], _ => []
  | (zone, capacity) :: rooms, arm =>
    match (arm.fill w limit zone capacity).toOption with
    | some (after, stack) => if zone = a then stack.leaves w else after.leavesIn w limit a rooms
    | none => []

namespace Arm

variable {a : Alignment}

theorem leavesIn_cons {r : Arm × Stack} (filled : arm.fill w limit zone capacity = .ok r)
    (rooms : List (Alignment × Nat)) : arm.leavesIn w limit a ((zone, capacity) :: rooms) =
      if zone = a then r.2.leaves w else r.1.leavesIn w limit a rooms := by
  rw [leavesIn, filled]
  rfl

/-- In the other zones an arm places what one zone leaves it. -/
theorem flatMap_leavesIn_cons {zones : List Alignment} {r : Arm × Stack}
    (filled : arm.fill w limit zone capacity = .ok r) (other : ∀ a ∈ zones, zone ≠ a)
    (rooms : List (Alignment × Nat)) :
    (zones.flatMap fun a => arm.leavesIn w limit a ((zone, capacity) :: rooms)) =
      zones.flatMap fun a => r.1.leavesIn w limit a rooms := by
  refine List.flatMap_congr fun a listed => ?_
  rw [leavesIn_cons filled, if_neg (other a listed)]

/-- Where leaves are placed does not depend on their numbers. -/
theorem leavesIn_rename (f : Renaming) (rooms : List (Alignment × Nat)) (arm : Arm) :
    (arm.rename f).leavesIn w limit a rooms =
      (arm.leavesIn w limit a rooms).map (Leaf.rename f) := by
  induction rooms generalizing arm with
  | nil => rfl
  | cons room rooms ih =>
    unfold leavesIn
    rw [fill_rename, toOption_map]
    cases (arm.fill w limit room.1 room.2).toOption with
    | none => rfl
    | some filled =>
      dsimp only [Option.map_some, Prod.map_apply]
      split
      · exact filled.2.leaves_rename
      · exact ih filled.1

/-- Nor does it depend on the position of the arm. -/
theorem leavesIn_reindex (index : Nat) (rooms : List (Alignment × Nat)) (arm : Arm) :
    ({ arm with index } : Arm).leavesIn w limit a rooms = arm.leavesIn w limit a rooms := by
  induction rooms generalizing arm with
  | nil => rfl
  | cons room rooms ih =>
    unfold leavesIn
    rw [toOption_fill_reindex]
    cases (arm.fill w limit room.1 room.2).toOption with
    | none => rfl
    | some filled =>
      dsimp only [Option.map_some, Prod.map_apply]
      split
      · rfl
      · exact ih filled.1

end Arm

theorem flatMap_eq_of_forall₂ {α β γ : Type} {f : α → List γ} {g : β → List γ} {xs : List α}
    {ys : List β} (same : List.Forall₂ (fun x y => f x = g y) xs ys) :
    xs.flatMap f = ys.flatMap g := by
  induction same with
  | nil => rfl
  | cons first _ ih => rw [List.flatMap_cons, List.flatMap_cons, first, ih]

/-- A step places what the arms have for its zone, and leaves them what they have for the others. -/
theorem ZoneStep.leaves_fill {a : Alignment} {step : ZoneStep}
    (filled : fill w limit zone start boundary arms = .ok step) (rooms : List (Alignment × Nat)) :
    arms.flatMap (Arm.leavesIn w limit a ((step.zone, step.capacity) :: rooms)) =
      if step.zone = a then (step.toZone w).leaves
      else step.after.flatMap (Arm.leavesIn w limit a rooms) := by
  obtain ⟨results, size, stop, each, _, _, rfl⟩ := fill_eq_ok.mp filled
  dsimp only [toZone]
  rw [List.flatMap_map, List.flatMap_map]
  split
  · rename_i here
    refine flatMap_eq_of_forall₂ (each.imp fun arm r own => ?_)
    rw [Arm.leavesIn_cons own, if_pos here]
  · rename_i other
    refine flatMap_eq_of_forall₂ (each.imp fun arm r own => ?_)
    rw [Arm.leavesIn_cons own, if_neg other]

namespace Storage

variable {s last : Storage} {target : Boundaries} {a : Alignment} {zones : List Alignment}
  {steps : List ZoneStep}

/-- The zones that are filled have the leaves that their room leaves to every arm. -/
theorem Fills.leaves (fills : Fills w limit target zones s steps last) :
    ((steps.find? (·.zone == a)).map fun step => (step.toZone w).leaves).getD [] =
      s.arms.flatMap
        (Arm.leavesIn w limit a (steps.map fun step => (step.zone, step.capacity))) := by
  induction fills with
  | nil => exact (List.flatMap_eq_nil_iff.mpr fun _ _ => rfl).symm
  | @cons zone rest s last step steps filled _ ih =>
    rw [List.map_cons, ZoneStep.leaves_fill filled, List.find?_cons, ← ih]
    by_cases here : step.zone = a
    · rw [if_pos here, beq_iff_eq.mpr here]
      rfl
    · rw [if_neg here, beq_eq_false_iff_ne.mpr here]

/-- The zone of a class holds what every arm places there. -/
theorem leaves_zone (placed : place w limit target arms = .ok s) :
    (s.zone w a).leaves = arms.flatMap (Arm.leavesIn w limit a s.rooms) := by
  have leaves := @Fills.leaves w limit _ _ _ a _ _ (fills_of_start (placeZones_of_place placed))
  rw [rooms, ← leaves, zone]
  cases s.steps.find? (·.zone == a) <;> rfl

end Storage

/-! ## Every leaf is placed -/

theorem Stack.slots_leaves (w : Width) (stack : Stack) :
    ((stack.leaves w).map (·.slot)).Perm ((stack.items.flatMap (·.leaves)).map (·.slot)) := by
  have moved : (stack.leaves w).map (·.slot) =
      ((stack.placed.map (·.2)).flatMap (·.leaves)).map (·.slot) := by
    unfold leaves
    rw [List.map_flatMap, List.flatMap_map, List.map_flatMap]
    exact List.flatMap_congr fun p _ => List.map_map
  rw [moved]
  exact ((List.reverse_perm _).symm.flatMap_right _).map _

/-- The slots of what an arm places in a zone and what it has left are the slots that it had. -/
theorem Arm.Filled.slots_perm {after : Arm} {stack : Stack} (filled : arm.Filled zone after stack) :
    ((stack.leaves w).map (·.slot) ++ (after.pending.flatMap (·.leaves)).map (·.slot)).Perm
      ((arm.pending.flatMap (·.leaves)).map (·.slot)) := by
  have all := (filled.perm.flatMap_right (·.leaves)).map (·.slot)
  rw [List.flatMap_append, List.map_append] at all
  exact ((stack.slots_leaves w).append_right _).trans all

namespace Storage

variable {s last : Storage} {target : Boundaries} {zones : List Alignment} {steps : List ZoneStep}

/-- Filling the zones places every leaf that an arm has left. -/
theorem Fills.slots_perm (fills : Fills w limit target zones s steps last)
    (placing : Placing w arms zones s) {now : Arm} (member : now ∈ s.arms) :
    ((zones.flatMap fun a => now.leavesIn w limit a
      (steps.map fun step => (step.zone, step.capacity))).map (·.slot)).Perm
        ((now.pending.flatMap (·.leaves)).map (·.slot)) := by
  induction fills generalizing now with
  | nil =>
    obtain ⟨_, _, within, _⟩ := exists_left_of_mem placing.left member
    rw [Arm.pending_eq_nil within]
    exact List.Perm.refl _
  | @cons zone rest s last step steps filled others ih =>
    have further := placing.fill filled
    obtain ⟨results, size, stop, each, _, _, rfl⟩ := ZoneStep.fill_eq_ok.mp filled
    obtain ⟨r, listed, own⟩ := exists_right_of_mem each member
    have fill := (Arm.ensures_fill (placing.below now member)).of_ok own
    have smaller := (List.pairwise_cons.mp placing.ordered).1
    have other : ∀ a ∈ rest, zone ≠ a := by
      rintro a later rfl
      exact Nat.lt_irrefl _ (smaller zone later)
    rw [List.map_cons, List.flatMap_cons, Arm.leavesIn_cons own, if_pos rfl,
      Arm.flatMap_leavesIn_cons own other, List.map_append]
    have left := ih further (List.mem_map_of_mem listed)
    exact (left.append_left _).trans fill.slots_perm

end Storage

/-- An arm places each of its leaves in one of the zones. -/
theorem Arm.slots_leavesIn {s : Storage} {target : Boundaries}
    (placed : Storage.place w limit target arms = .ok s) (member : arm ∈ arms) :
    ((Alignment.descending.flatMap fun a => arm.leavesIn w limit a s.rooms).map (·.slot)).Perm
      ((arm.pending.flatMap (·.leaves)).map (·.slot)) := by
  have fills := Storage.fills_of_start (Storage.placeZones_of_place placed)
  exact fills.slots_perm (Storage.Placing.start w arms) member

end PackedLayout
