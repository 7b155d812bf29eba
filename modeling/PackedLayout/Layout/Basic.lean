import PackedLayout.Error
import PackedLayout.Item
import PackedLayout.Variant.Boundaries

/-!
# Layouts

The finished layout of a root struct: an offset for every primitive field, the packs of its arrays,
a record for every variant, and where its data of variable length begins.
-/

namespace PackedLayout

/-- Where one primitive field lies. -/
structure FieldOffset where
  offset : Nat
  /-- The field's own slot, as a 16-bit number. -/
  fieldId : Nat
  align : Alignment
  /-- The innermost array the field is repeated in. -/
  pack : Option PackId := none
deriving DecidableEq

namespace FieldOffset

/-- The entry of a slot that no field was written to. -/
def empty : FieldOffset := ⟨0xffffffffffffffff, 0xffff, .one, none⟩

def isEmpty (f : FieldOffset) : Bool := f.offset == 0xffffffffffffffff && f.fieldId == 0xffff

end FieldOffset

/-- A field of variable length at the end of the root struct. -/
structure TrailingField where
  name : String
  elementSize : Nat
  align : Alignment
deriving DecidableEq

/-- How one variant was laid out. -/
structure VariantLayout where
  /-- The slot of the tag. -/
  tag : Nat
  /-- The number of arms. -/
  arms : Nat
  target : Boundaries
  layout : Boundaries
  required : Nat
  perfect : Bool
  span : Span
deriving DecidableEq

structure Layout where
  name : String
  /-- One entry for every slot. -/
  fields : Array FieldOffset
  packs : Array Pack
  variants : Array VariantLayout
  trailing : List TrailingField
  /-- The zones of the fixed part. -/
  zones : UnitCounts
  fixedSize : Nat
  /-- Where data of variable length begins, if there is any. -/
  varStart : Option Nat
  warnings : Array Warning
deriving DecidableEq

end PackedLayout
