import PackedLayout.Layout.Basic

/-!
# Questions to a layout

The chain of packs around a field, and the offset of one of its elements. A chain that leaves the
table of packs, or never ends, is no chain.
-/

namespace PackedLayout.Layout

/-- Bytes before the data of variable length, padding included. -/
def consumedSize (layout : Layout) : Nat := layout.varStart.getD layout.fixedSize

def isPerfect (layout : Layout) : Bool := layout.warnings.isEmpty

def pack? (layout : Layout) (id : PackId) : Option Pack := layout.packs[id.index]?

/-- The packs from `next` outward, put in front of `inner`; at most `fuel` of them. -/
def chainFrom (layout : Layout) : Nat → Option PackId → List PackId → Option (List PackId)
  | _, none, inner => some inner
  | 0, some _, _ => none
  | fuel + 1, some id, inner =>
    match layout.pack? id with
    | none => none
    | some pack => chainFrom layout fuel pack.parent (id :: inner)

/-- The packs around a slot, outermost first. No chain is longer than the table of packs. -/
def packChain? (layout : Layout) (slot : Nat) : Option (List PackId) :=
  layout.chainFrom layout.packs.size (layout.fields[slot]?.bind (·.pack)) []

/-- The distance from the first element of some arrays to the one at the given indices; nothing
when there is no such element. -/
def elementDistance? : List Pack → List Nat → Option Nat
  | [], [] => some 0
  | pack :: packs, index :: indices =>
    if index < pack.length then
      (elementDistance? packs indices).map (index * pack.elementSize + ·)
    else none
  | _, _ => none

/-- The offset of a slot at the given indices, outermost array first. The outer `Option` fails on
a broken chain, the inner one when the slot or the element does not exist. -/
def elementOffset (w : Width) (layout : Layout) (slot : Nat) (indices : List Nat) :
    Option (Option Nat) :=
  match layout.fields[slot]? with
  | none => some none
  | some field => do
    let chain ← layout.packChain? slot
    let packs ← chain.mapM layout.pack?
    return (elementDistance? packs indices).map fun distance => w.wrap (field.offset + distance)

/-- The slots in the order of their offsets. -/
def slotsByOffset (layout : Layout) : List Nat :=
  let keyed := layout.fields.toList.zipIdx.map fun (field, slot) => (field.offset, slot)
  (keyed.mergeSort fun a b => a.1 < b.1 || (a.1 == b.1 && a.2 ≤ b.2)).map (·.2)

end PackedLayout.Layout
