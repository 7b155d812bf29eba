import PackedLayout.UnitCounts

/-!
# Items and zones

A leaf is one primitive field: its slot in the table of fields, and its offset inside what holds
it. An item is what is placed as a whole: a leaf, or one zone of an array, of a variant or of a
struct, with all the leaves in it. A zone holds items of one class back to back.
-/

namespace PackedLayout

/-- Names a pack of a layout: one class of one array. -/
structure PackId where
  index : Nat
deriving DecidableEq

/-- One class of an array: the element's zone of that class, repeated back to back. -/
structure Pack where
  /-- `elementSize * length`. -/
  size : Nat
  elementSize : Nat
  length : Nat
  align : Alignment
  /-- The pack of the next enclosing array. -/
  parent : Option PackId := none
deriving DecidableEq

structure Leaf where
  slot : Nat
  align : Alignment
  /-- From the start of what holds the leaf. -/
  offset : Nat := 0
  /-- The arrays around the leaf, outermost first. -/
  packs : List PackId := []
deriving DecidableEq

def Leaf.moveBy (w : Width) (distance : Nat) (leaf : Leaf) : Leaf :=
  { leaf with offset := w.wrap (leaf.offset + distance) }

structure Item where
  size : Nat
  align : Alignment
  leaves : List Leaf
deriving DecidableEq

/-- Things by class, largest first, and within a class in the order given. -/
def byClass {α : Type} (align : α → Alignment) (xs : List α) : List α :=
  Alignment.descending.flatMap fun a => xs.filter (align · == a)

/-- The items by class, largest first, and within a class in the order given. -/
def largestFirst (items : List Item) : List Item := byClass (·.align) items

/-- The size of all items together, unchecked. -/
def totalSize (w : Width) (items : List Item) : Nat := w.sum (items.map (·.size))

/-- The size of all items together. -/
def totalSize? (w : Width) (items : List Item) : Option Nat :=
  w.sum? (items.map (·.size))

/-- A run of bytes with leaves in it. -/
structure Zone where
  size : Nat := 0
  /-- Leaves placed last come first. -/
  leaves : List Leaf := []
deriving DecidableEq

namespace Zone

def empty : Zone := {}

/-- Puts an item at the end of the zone. -/
def push? (w : Width) (zone : Zone) (item : Item) : Option Zone :=
  (w.checked (zone.size + item.size)).map fun size =>
    { size, leaves := item.leaves.map (Leaf.moveBy w zone.size) ++ zone.leaves }

/-- The zone as one item to be placed in the zone of the same class around it. -/
def toItem (zone : Zone) (align : Alignment) : Item := ⟨zone.size, align, zone.leaves⟩

end Zone

end PackedLayout
