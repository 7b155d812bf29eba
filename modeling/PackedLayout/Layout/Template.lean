import PackedLayout.Layout.Basic

/-!
# Templates

A template is the layout of a struct whose offsets still count from the starts of its own zones. It
is made once for each struct, and spliced wherever the struct is used. `toLayout` makes it a
layout by moving every zone to its place.
-/

namespace PackedLayout

structure Template where
  name : String
  /-- The number of slots. -/
  slots : Nat
  zones : PerClass Zone
  footprint : UnitCounts
  packs : Array Pack
  variants : Array VariantLayout
  trailing : List TrailingField
  warnings : Array Warning
deriving DecidableEq

/-- The bytes of some zones, unless they need more than a word. -/
def footprint? (w : Width) (zones : PerClass Zone) : Option UnitCounts :=
  Alignment.descending.foldlM
    (fun counts a => (counts.addBytes? w a (zones.get a).size).map (·.1)) UnitCounts.empty

def PackId.renumber (packs : Nat) (id : PackId) : PackId := ⟨id.index + packs⟩

def Pack.renumber (packs : Nat) (p : Pack) : Pack :=
  { p with parent := p.parent.map (PackId.renumber packs) }

def Leaf.renumber (slots packs : Nat) (leaf : Leaf) : Leaf :=
  { leaf with slot := leaf.slot + slots, packs := leaf.packs.map (PackId.renumber packs) }

def VariantLayout.renumber (slots : Nat) (v : VariantLayout) : VariantLayout :=
  { v with tag := v.tag + slots }

namespace Template

/-- The template with its slots and packs moved up, to come after others. -/
def renumber (slots packs : Nat) (t : Template) : Template :=
  { t with
    zones := t.zones.map fun zone =>
      { zone with leaves := zone.leaves.map (Leaf.renumber slots packs) }
    packs := t.packs.map (Pack.renumber packs)
    variants := t.variants.map (VariantLayout.renumber slots) }

/-- The zones at the sizes the footprint counts. -/
def sizedZones (w : Width) (t : Template) : PerClass Zone :=
  .ofFn fun a => ⟨t.footprint.bytes w a, (t.zones.get a).leaves⟩

/-- Writes the entry of a leaf whose zone starts at `start`. A slot is written once. -/
def write (w : Width) (start : Nat) (fields : Array FieldOffset) (leaf : Leaf) :
    Except Failure (Array FieldOffset) :=
  match fields[leaf.slot]? with
  | some entry =>
    if entry.isEmpty then
      .ok (fields.setIfInBounds leaf.slot
        ⟨w.wrap (start + leaf.offset), leaf.slot % 0x10000, leaf.align, leaf.packs.getLast?⟩)
    else .error (.fault (.slotWrittenTwice leaf.slot))
  | none => .error (.fault (.slotWrittenTwice leaf.slot))

/-- The entries of all slots. -/
def fieldOffsets (w : Width) (t : Template) : Except Failure (Array FieldOffset) := do
  let fields ← Alignment.descending.foldlM
    (fun fields a =>
      (t.zones.get a).leaves.foldlM (write w (t.footprint.zoneStart w a)) fields)
    (Array.replicate t.slots FieldOffset.empty)
  match fields.findIdx? FieldOffset.isEmpty with
  | some slot => throw (.fault (.slotNeverWritten slot))
  | none => return fields

/-- Where data of variable length begins: aligned for all of it. -/
def varStart? (w : Width) (t : Template) (fixedSize : Nat) : Option (Option Nat) :=
  match Alignment.descending.find? fun a => t.trailing.any (·.align == a) with
  | none => some none
  | some largest => (largest.roundUp? w fixedSize).map some

/-- The layout of the struct as a root. -/
def toLayout (w : Width) (t : Template) : Except Failure Layout := do
  let fields ← t.fieldOffsets w
  let fixedSize := t.footprint.totalBytes w
  let varStart ← orOverflow (t.varStart? w fixedSize)
  return {
    name := t.name
    fields
    packs := t.packs
    variants := t.variants
    trailing := t.trailing
    zones := t.footprint
    fixedSize
    varStart
    warnings := t.warnings }

end Template

end PackedLayout
