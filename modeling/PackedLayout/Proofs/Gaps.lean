import Mathlib.Data.List.Sigma
import PackedLayout.Proofs.Stacking

/-!
# Fields and gaps

The fields of an arm are placed by their positions, and each leaves a gap:

- `Arm.map_unplaced`, `Arm.mem_unplaced`, `Arm.nodup_unplaced`: the fields still to place, each at
  a position of its own that holds no gap;
- `Arm.Picks`, `Arm.foldlM_place`: fields at different positions are stacked in turn, and none of
  them was placed before;
- `Arm.gapsAt_perm`, `Arm.gapsAt_sublist`: exactly the other fields are still to place.
-/

namespace PackedLayout

namespace Arm

variable {w : Width} {index position : Nat} {item : Item} {arm : Arm}
  {fields : List (Option Item)} {picks : List (Nat × Item)}

/-! ## The fields still to place -/

theorem mem_unplaced {pick : Nat × Item} :
    pick ∈ arm.unplaced ↔ arm.fields[pick.1]? = some (some pick.2) := by
  obtain ⟨position, item⟩ := pick
  unfold unplaced
  rw [List.mem_filterMap]
  constructor
  · rintro ⟨⟨field, i⟩, member, same⟩
    obtain ⟨_, rfl, pair⟩ := Option.map_eq_some_iff.mp same
    cases pair
    exact List.mem_zipIdx_iff_getElem?.mp member
  · intro here
    exact ⟨(some item, position), List.mem_zipIdx_iff_getElem?.mpr here, rfl⟩

theorem map_unplaced (arm : Arm) : arm.unplaced.map (·.2) = arm.pending := by
  have fields := List.zipIdx_map_fst 0 arm.fields
  unfold pending unplaced
  conv_rhs => rw [← fields, List.filterMap_map]
  rw [List.map_filterMap]
  apply List.filterMap_congr
  rintro ⟨field, i⟩ _
  simp [Option.map_map, Function.comp_def]

theorem mem_pending {pick : Nat × Item} (h : pick ∈ arm.unplaced) : pick.2 ∈ arm.pending :=
  arm.map_unplaced ▸ List.mem_map_of_mem h

/-- Of an arm that was just made, all fields are still to place. -/
theorem pending_of? {items : List Item} (h : of? w index items = some arm) :
    arm.pending = items := by
  obtain ⟨_, _, rfl⟩ := Option.map_eq_some_iff.mp h
  show (items.map some).filterMap id = items
  rw [List.filterMap_map]
  exact List.filterMap_some

theorem nodup_unplaced (arm : Arm) : (arm.unplaced.map (·.1)).Nodup := by
  have positions := List.pairwise_map.mp (List.nodup_zipIdx_map_snd arm.fields)
  apply List.pairwise_map.mpr
  refine positions.filterMap _ ?_
  rintro ⟨field, i⟩ ⟨field', j⟩ differ pick here pick' there
  obtain ⟨_, _, rfl⟩ := Option.map_eq_some_iff.mp here
  obtain ⟨_, _, rfl⟩ := Option.map_eq_some_iff.mp there
  exact differ

/-! ## Placing fields -/

/-- Some fields at different positions, each still to place. -/
structure Picks (fields : List (Option Item)) (picks : List (Nat × Item)) : Prop where
  nodup : (picks.map (·.1)).Nodup
  own : ∀ pick ∈ picks, fields[pick.1]? = some (some pick.2)

/-- Once the first field is placed, the others are still to place. -/
theorem Picks.tail {pick : Nat × Item} (h : Picks fields (pick :: picks)) :
    Picks (fields.set pick.1 none) picks := by
  obtain ⟨fresh, nodup⟩ := List.nodup_cons.mp h.nodup
  refine ⟨nodup, fun other member => ?_⟩
  have differ : pick.1 ≠ other.1 := fun same =>
    fresh (List.mem_map.mpr ⟨other, member, same.symm⟩)
  rw [List.getElem?_set_ne differ]
  exact h.own other (List.mem_cons_of_mem _ member)

/-- Some of the fields of an arm that are still to place. -/
theorem picks_of_subperm (some_ : picks.Subperm arm.unplaced) : Picks arm.fields picks where
  nodup := by
    obtain ⟨part, perm, sub⟩ := some_
    exact (perm.map _).nodup_iff.mp (arm.nodup_unplaced.sublist (sub.map _))
  own := fun _ member => mem_unplaced.mp (some_.subset member)

theorem place_eq (w : Width) (index : Nat) (stack : Stack)
    (here : fields[position]? = some (some item)) :
    place w index (fields.toArray, stack) position =
      (orOverflow (stack.push? w item)).map fun stack =>
        ((fields.set position none).toArray, stack) := by
  unfold place
  dsimp only
  rw [List.getElem?_toArray, here]
  cases pushed : stack.push? w item with
  | none => simp [pushed, Except.map]
  | some stack => simp [pushed, Except.map]

/-- The fields with gaps at some positions. -/
def gapsAt (positions : List Nat) (fields : List (Option Item)) : List (Option Item) :=
  positions.foldl (fun fields position => fields.set position none) fields

theorem gapsAt_map (g : Item → Item) (positions : List Nat) (fields : List (Option Item)) :
    gapsAt positions (fields.map (Option.map g)) =
      (gapsAt positions fields).map (Option.map g) := by
  induction positions generalizing fields with
  | nil => rfl
  | cons position rest ih =>
    have later := ih (fields.set position none)
    rw [List.map_set] at later
    exact later

/-- The picks are stacked in turn, unless the stack gets too high. None of them was placed
before. -/
theorem foldlM_place (w : Width) (index : Nat) (stack : Stack) (h : Picks fields picks) :
    (picks.map (·.1)).foldlM (place w index) (fields.toArray, stack) =
      (orOverflow ((picks.map (·.2)).foldlM (Stack.push? w) stack)).map fun stack =>
        ((gapsAt (picks.map (·.1)) fields).toArray, stack) := by
  induction picks generalizing fields stack with
  | nil => rfl
  | cons pick rest ih =>
    rw [List.map_cons, List.map_cons, List.foldlM_cons, List.foldlM_cons,
      place_eq w index stack (h.own pick List.mem_cons_self)]
    cases stack.push? w pick.2 with
    | none => rfl
    | some stack => exact ih stack h.tail

/-- A field that was placed is not placed again. -/
example : [0, 0].foldlM (place .bits64 3) (#[some ⟨1, .one, []⟩], {}) =
    .error (.fault (.fieldPlacedTwice 3 0)) := by rfl

/-! ## What stays -/

/-- A gap takes one field out. -/
theorem filterMap_gap (here : fields[position]? = some (some item)) :
    ∃ before behind : List Item, fields.filterMap id = before ++ item :: behind ∧
      (fields.set position none).filterMap id = before ++ behind := by
  obtain ⟨inside, same⟩ := List.getElem?_eq_some_iff.mp here
  refine ⟨(fields.take position).filterMap id, (fields.drop (position + 1)).filterMap id, ?_, ?_⟩
  · conv_lhs => rw [← List.take_append_drop position fields, List.drop_eq_getElem_cons inside, same]
    rw [List.filterMap_append]
    rfl
  · rw [List.set_eq_take_append_cons_drop, if_pos inside, List.filterMap_append]
    rfl

theorem gapsAt_perm (h : Picks fields picks) :
    (picks.map (·.2) ++ (gapsAt (picks.map (·.1)) fields).filterMap id).Perm
      (fields.filterMap id) := by
  induction picks generalizing fields with
  | nil => exact List.Perm.refl _
  | cons pick rest ih =>
    obtain ⟨before, behind, all, others⟩ := filterMap_gap (h.own pick List.mem_cons_self)
    have later := ih h.tail
    rw [others] at later
    rw [all]
    exact (later.cons pick.2).trans List.perm_middle.symm

theorem gapsAt_sublist (h : Picks fields picks) :
    ((gapsAt (picks.map (·.1)) fields).filterMap id).Sublist (fields.filterMap id) := by
  induction picks generalizing fields with
  | nil => exact List.Sublist.refl _
  | cons pick rest ih =>
    obtain ⟨before, behind, all, others⟩ := filterMap_gap (h.own pick List.mem_cons_self)
    have later := ih h.tail
    rw [others] at later
    rw [all]
    exact later.trans ((List.sublist_cons_self pick.2 behind).append_left before)

end Arm

end PackedLayout
