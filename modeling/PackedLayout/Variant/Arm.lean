import PackedLayout.Error
import PackedLayout.Item
import PackedLayout.SubsetSum.Choice

/-!
# Arms of a variant

An arm has fields to place. In the zone of a class it places all of its fields of that class, and
fills the rest of the zone's capacity with smaller ones, as well as it can. The fields go back to
back, largest class first, which keeps each of them aligned.
-/

namespace PackedLayout

structure Arm where
  /-- The arm's position among the arms of the variant. -/
  index : Nat
  /-- Units of each class among all fields. -/
  counts : UnitCounts
  /-- Bytes of all fields. -/
  required : Nat
  /-- The fields, in order. One that was placed leaves a gap. -/
  fields : List (Option Item)
deriving DecidableEq

/-- Items stacked back to back from offset 0. -/
structure Stack where
  height : Nat := 0
  /-- Each item with its offset, topmost first. -/
  placed : List (Nat × Item) := []
deriving DecidableEq

namespace Stack

def push? (w : Width) (stack : Stack) (item : Item) : Option Stack :=
  (w.checked (stack.height + item.size)).map fun height =>
    ⟨height, (stack.height, item) :: stack.placed⟩

def of? (w : Width) (items : List Item) : Option Stack := items.foldlM (push? w) {}

/-- The leaves of the items, their offsets counted from the bottom. -/
def leaves (w : Width) (stack : Stack) : List Leaf :=
  stack.placed.flatMap fun (offset, item) => item.leaves.map (Leaf.moveBy w offset)

end Stack

namespace Arm

/-- Counts and total with one more field. -/
def count? (w : Width) (sofar : UnitCounts × Nat) (field : Item) : Option (UnitCounts × Nat) :=
  sofar.1.addBytes? w field.align field.size

/-- An arm with nothing placed yet. -/
def of? (w : Width) (index : Nat) (fields : List Item) : Option Arm :=
  (fields.foldlM (count? w) (.empty, 0)).map fun (counts, required) =>
    ⟨index, counts, required, fields.map some⟩

/-- The fields still to place. -/
def pending (arm : Arm) : List Item := arm.fields.filterMap id

/-- The fields still to place, each with its position among all of them. -/
def unplaced (arm : Arm) : List (Nat × Item) :=
  arm.fields.zipIdx.filterMap fun (field, position) => field.map (position, ·)

/-- Bytes still to place among the fields whose class passes a test. -/
def pendingBytes (w : Width) (test : Alignment → Bool) (arm : Arm) : Nat :=
  totalSize w (arm.pending.filter fun item => test item.align)

/-- The positions of the fields to place in a zone, in the order of their placement. -/
def select (w : Width) (limit : Nat) (zone : Alignment) (capacity : Nat) (arm : Arm) :
    Except Failure (List Nat) := do
  if let some missed := arm.pending.find? fun item => zone < item.align then
    throw (.fault (.fieldMissedZone arm.index missed.align))
  let mandatory := arm.unplaced.filter (·.2.align == zone)
  let optional := byClass (·.2.align) (arm.unplaced.filter (·.2.align != zone))
  let least ← orOverflow (totalSize? w (mandatory.map (·.2)))
  let spare ← orOverflow (totalSize? w (optional.map (·.2)))
  let available ← orOverflow (w.checked (least + spare))
  let wanted := min (max capacity least) available - least
  if wanted = spare then
    return (mandatory ++ optional).map (·.1)
  else if wanted = 0 then
    return mandatory.map (·.1)
  else
    let sizes := optional.map (·.2.size)
    let mask ←
      if wanted ≤ limit then
        (bestSubset sizes wanted).mapError fun sum => .fault (.brokenChain sum)
      else pure (firstFit sizes wanted)
    return (mandatory ++ chosen optional mask).map (·.1)

/-- Places the field at a position on top of the stack, which leaves a gap. No field is placed
twice, so there must be no gap yet. -/
def place (w : Width) (index : Nat) :
    Array (Option Item) × Stack → Nat → Except Failure (Array (Option Item) × Stack)
  | (fields, stack), position =>
    match fields[position]? with
    | some (some item) => do
      let stack ← orOverflow (stack.push? w item)
      return (fields.setIfInBounds position none, stack)
    | _ => throw (.fault (.fieldPlacedTwice index position))

/-- Places fields in a zone: the arm with the others, and the stack it makes of them. -/
def fill (w : Width) (limit : Nat) (zone : Alignment) (capacity : Nat) (arm : Arm) :
    Except Failure (Arm × Stack) := do
  let picked ← arm.select w limit zone capacity
  let (fields, stack) ← picked.foldlM (place w arm.index) (arm.fields.toArray, {})
  return ({ arm with fields := fields.toList }, stack)

end Arm

end PackedLayout
