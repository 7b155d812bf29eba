import PackedLayout.Layout.Template
import PackedLayout.Options
import PackedLayout.Variant.Resolution

/-!
# Drafts

A draft is the layout of a struct while its types are gone through: the tables of the struct, and
the container that items are put into. A body places its items at once, each in the zone of its
class; an arm of a variant only collects them.
-/

namespace PackedLayout

/-- A layout holds at most this many slots; the next number marks an empty entry. -/
def maxSlots : Nat := 65535

inductive Container where
  | body (zones : PerClass Zone)
  /-- Items put in last come first. -/
  | arm (items : List Item)
deriving DecidableEq

namespace Container

def emptyBody : Container := .body (.fill .empty)

def put? (w : Width) (item : Item) : Container → Option Container
  | body zones =>
    ((zones.get item.align).push? w item).map fun zone => .body (zones.set item.align zone)
  | arm items => some (.arm (item :: items))

/-- The zones of a body. -/
def zones : Container → PerClass Zone
  | body zones => zones
  | arm _ => .fill .empty

/-- The items of an arm, in the order they were put in. -/
def items : Container → List Item
  | body _ => []
  | arm items => items.reverse

end Container

structure Draft where
  /-- The number of slots given out. -/
  slots : Nat := 0
  packs : Array Pack := #[]
  variants : Array VariantLayout := #[]
  warnings : Array Warning := #[]
  container : Container := .emptyBody
deriving DecidableEq

namespace Draft

def empty : Draft := {}

/-- Goes on in another container. The one that was left stands beside the draft, so a caller that
comes back to it need not keep the old draft, and the tables are never copied. -/
def exchange (container : Container) (draft : Draft) : Container × Draft :=
  (draft.container, { draft with container })

def put (w : Width) (span : Span) (item : Item) (draft : Draft) : Except LayoutError Draft :=
  match draft.container.put? w item with
  | some container => .ok { draft with container }
  | none => .error (.overflow span)

/-- Gives a primitive field the next slot and puts it in. -/
def putLeaf (w : Width) (span : Span) (align : Alignment) (size : Nat) (draft : Draft) :
    Except LayoutError Draft :=
  if draft.slots < maxSlots then
    { draft with slots := draft.slots + 1 }.put w span ⟨size, align, [⟨draft.slots, align, 0, []⟩]⟩
  else .error ⟨.tooManyFields maxSlots, span⟩

/-- Puts in the zones of a sub-layout, each as one item. -/
def putZones (w : Width) (span : Span) (zones : PerClass Zone) (draft : Draft) :
    Except LayoutError Draft :=
  Alignment.descending.foldlM (fun draft a =>
    if (zones.get a).size = 0 then .ok draft
    else draft.put w span ((zones.get a).toItem a)) draft

/-- Makes the pack `id` the parent of the outermost pack around a leaf, if there is one. -/
def adopt (id : PackId) (packs : Array Pack) (leaf : Leaf) : Array Pack :=
  match leaf.packs with
  | [] => packs
  | outer :: _ => packs.modify outer.index fun p => { p with parent := some id }

/-- Adds a pack around some leaves. -/
def addPack (pack : Pack) (leaves : List Leaf) (draft : Draft) : List Leaf × Draft :=
  let id : PackId := ⟨draft.packs.size⟩
  (leaves.map fun leaf => { leaf with packs := id :: leaf.packs },
    { draft with packs := leaves.foldl (adopt id) (draft.packs.push pack) })

/-- Puts in one class of an array, unless the element has nothing of the class. -/
def putPack (w : Width) (span : Span) (length : Nat) (align : Alignment) (elementSize : Nat)
    (leaves : List Leaf) (draft : Draft) : Except LayoutError Draft :=
  if elementSize = 0 then .ok draft
  else
    match w.checked (elementSize * length) with
    | none => .error (.overflow span)
    | some size =>
      let (leaves, draft) := draft.addPack { size, elementSize, length, align } leaves
      draft.put w span ⟨size, align, leaves⟩

/-- Puts in an array, given the zones of its element. -/
def putArray (w : Width) (span : Span) (length : Nat) (element : PerClass Zone)
    (draft : Draft) : Except LayoutError Draft :=
  match footprint? w element with
  | none => .error (.overflow span)
  | some footprint =>
    Alignment.descending.foldlM (fun draft a =>
      draft.putPack w span length a (footprint.bytes w a) (element.get a).leaves) draft

/-- Copies the layout of a struct into the draft. Its slots and packs come after the draft's. -/
def embed (w : Width) (span : Span) (t : Template) (draft : Draft) : Except LayoutError Draft :=
  if maxSlots < draft.slots + t.slots then .error ⟨.tooManyFields maxSlots, span⟩
  else
    let t := t.renumber draft.slots draft.packs.size
    putZones w span (t.sizedZones w) { draft with
      slots := draft.slots + t.slots
      packs := draft.packs ++ t.packs
      variants := draft.variants ++ t.variants
      warnings := draft.warnings ++ t.warnings }

/-- Records a resolved variant and puts in its storage. Where only perfect storage is accepted,
the first degradation is an error. -/
def putVariant (w : Width) (options : Options) (span : Span) (tag arms : Nat) (r : Resolution)
    (draft : Draft) : Except LayoutError Draft :=
  match options.requirePerfect, r.degradations with
  | true, reason :: _ => .error ⟨.imperfectLayout reason, span⟩
  | _, degradations =>
    putZones w span (r.storage.zones w) { draft with
      variants := draft.variants.push
        ⟨tag, arms, r.target, r.layout, r.required, r.isPerfect, span⟩
      warnings := draft.warnings ++ degradations.map fun d => (⟨d, span⟩ : Warning) }

end Draft

end PackedLayout
