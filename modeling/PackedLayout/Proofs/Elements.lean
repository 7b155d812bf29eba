import Mathlib
import PackedLayout.Layout.Queries
import PackedLayout.Proofs.Finishing

/-!
# Slots and elements of a layout

A leaf inside arrays has an element for every choice of indices, and a layout says where it is:

- `every_slot_once`: every slot has an entry, and no fault is met;
- `Layout.Expands`, `Expands.hasElement_iff`: the slots of a layout are the parts of a shape, with
  the elements of the arrays around them;
- `elements_apart`: elements that may be live together do not overlap;
- `elements_aligned`: every element is aligned and in the fixed part.
-/

namespace PackedLayout

/-! ## Slots -/

/-- No schema makes the layout meet a fault. When there is a layout, every slot has an entry that
names it, and is in one zone of the template once. -/
theorem every_slot_once (schema : Schema) (root : String) (options : Options) :
    (∀ e, schema.layOut root options = .error e → e.isInternal = false) ∧
      ∀ layout, schema.layOut root options = .ok layout →
        (∀ (slot : Nat) (field : FieldOffset), layout.fields[slot]? = some field →
          field.isEmpty = false ∧ field.fieldId = slot) ∧
        ∃ t span, (Engine.rootTemplate { schema, options } root .empty).1 = .ok (t, span) ∧
          t.toLayout .bits64 = .ok layout ∧ layout.fields.size = t.slots ∧
          (Alignment.descending.flatMap fun a => (t.zones.get a).leaves.map (·.slot)).Perm
            (List.range t.slots) := by
  have spec := layOut_spec schema root options
  refine ⟨fun e failed => spec.of_error failed, fun layout laid => ?_⟩
  obtain ⟨t, span, made, done, sound, _⟩ := spec.of_ok laid
  obtain ⟨shape, _, realizes⟩ := sound.shape
  obtain ⟨realized, _⟩ := (Template.ensures_toLayout realizes).of_ok done
  refine ⟨fun slot field known => ?_, t, span, made, done, ?_, ?_⟩
  · have inside := (Array.getElem?_eq_some_iff.mp known).1
    rw [realized.size_eq] at inside
    obtain ⟨leaf, member, rfl⟩ := List.mem_map.mp
      (realized.slots.mem_iff.mpr (List.mem_range.mpr inside))
    obtain rfl := Option.some.inj ((realized.entry leaf member).symm.trans known)
    exact ⟨Template.isEmpty_entry (Nat.lt_of_lt_of_le inside realized.size_le), rfl⟩
  · rw [realized.size_eq, realizes.slots_eq]
  · rw [← t.slots_leaves, realizes.slots_eq]
    exact realized.slots

/-- A struct with an array of variants, and with data of variable length. -/
def samples : Schema where
  types := ⟨#[⟨.primitive .uint16, .dummy⟩, ⟨.primitive .uint32, .dummy⟩,
    ⟨.primitive .uint8, .dummy⟩, ⟨.array ⟨2⟩ (.fixed 3), .dummy⟩,
    ⟨.variant [⟨1⟩, ⟨3⟩] .fixed, .dummy⟩, ⟨.array ⟨4⟩ (.fixed 2), .dummy⟩, ⟨.string, .dummy⟩]⟩
  declarations := [⟨"Sample", .struct [⟨"id", ⟨0⟩, .dummy⟩, ⟨"items", ⟨5⟩, .dummy⟩,
    ⟨"note", ⟨6⟩, .dummy⟩], .dummy⟩]

theorem samples_layOut :
    ∃ layout, samples.layOut "Sample" .default = .ok layout ∧ layout.fields.size = 4 :=
  -- runs by the equations of the state monad and of sorting, which only the whole library has
  ⟨_, by cbv, rfl⟩

theorem every_slot_once_samples :
    (∃ e, samples.layOut "Missing" .default = .error e ∧ e.isInternal = false) ∧
      ∃ layout field, samples.layOut "Sample" .default = .ok layout ∧
        layout.fields[3]? = some field ∧ field.isEmpty = false ∧ field.fieldId = 3 := by
  have failed : samples.layOut "Missing" .default =
      .error ⟨.unknownType "Missing", .dummy⟩ := by
    decide +kernel
  obtain ⟨layout, laid, size⟩ := samples_layOut
  have inside : 3 < layout.fields.size := by rw [size]; decide
  have known := Array.getElem?_eq_getElem inside
  exact ⟨⟨_, failed, (every_slot_once samples "Missing" .default).1 _ failed⟩, layout, _, laid,
    known, ((every_slot_once samples "Sample" .default).2 layout laid).1 3 _ known⟩

/-! ## Chains of packs -/

namespace Layout

variable {w : Width} {layout : Layout} {bound : Nat} {parent : Option PackId}
  {ids : List PackId} {parts : List Part} {leaves : List Leaf}

/-- There is an element of the slot at these indices, outermost array first. -/
def HasElement (layout : Layout) (slot : Nat) (indices : List Nat) : Prop :=
  ∃ ids packs, layout.packChain? slot = some ids ∧ ids.mapM layout.pack? = some packs ∧
    List.Forall₂ (fun index pack => index < pack.length) indices packs

/-- The slots of the layout are the parts, in their order and inside the same arrays. -/
def Expands (layout : Layout) (parts : List Part) : Prop :=
  layout.fields.size = parts.length ∧ ∀ slot part, parts[slot]? = some part →
    ∃ ids packs, layout.packChain? slot = some ids ∧ ids.mapM layout.pack? = some packs ∧
      packs.map (·.length) = lengths part.path

theorem chainFrom_linked (fuel : Nat) (linked : Linked layout.packs bound parent ids)
    (inner : List PackId) :
    layout.chainFrom (fuel + ids.length) (ids.getLast?.or parent) inner =
      layout.chainFrom fuel parent (ids ++ inner) := by
  induction linked generalizing fuel with
  | nil => rfl
  | @cons bound parent id ids pack known _ parent_eq _ ih =>
    have last : (id :: ids).getLast?.or parent = ids.getLast?.or (some id) := by
      rw [List.getLast?_cons]
      cases ids.getLast? <;> rfl
    rw [last, List.length_cons, Nat.add_comm ids.length, ← Nat.add_assoc, ih, chainFrom, pack?,
      known, ← parent_eq]
    rfl

theorem mapM_pack?_linked (parts : List Part) (linked : Linked layout.packs bound parent ids) :
    ∃ packs, ids.mapM layout.pack? = some packs ∧
      packs.map (fun pack => Dim.mk pack.elementSize pack.length) =
        ids.map (Legend.of layout.packs 0 parts).dim := by
  induction linked with
  | nil => exact ⟨[], rfl, rfl⟩
  | @cons _ _ id ids pack known _ _ _ ih =>
    obtain ⟨packs, found, same⟩ := ih
    refine ⟨pack :: packs, ?_, ?_⟩
    · rw [List.mapM_cons, found, pack?, known]
      rfl
    · have own : (Legend.of layout.packs 0 parts).dim id = ⟨pack.elementSize, pack.length⟩ := by
        show (layout.packs[id.index]?).elim _ _ = _
        rw [known]
        rfl
      rw [List.map_cons, List.map_cons, same, own]

/-- Within the lengths of some arrays there is a distance. -/
theorem elementDistance?_of_lt {packs : List Pack} {indices : List Nat}
    (h : List.Forall₂ (fun index pack => index < pack.length) indices packs) :
    ∃ n, elementDistance? packs indices = some n ∧
      Distance (packs.map fun pack => ⟨pack.elementSize, pack.length⟩) indices n := by
  induction h with
  | nil => exact ⟨0, rfl, .nil⟩
  | @cons index pack indices packs inside _ ih =>
    obtain ⟨n, found, walk⟩ := ih
    refine ⟨index * pack.elementSize + n, ?_, .cons inside walk⟩
    rw [elementDistance?, if_pos inside, found]
    rfl

theorem forall₂_of_elementDistance? {packs : List Pack} {indices : List Nat} {n : Nat}
    (h : elementDistance? packs indices = some n) :
    List.Forall₂ (fun index pack => index < pack.length) indices packs := by
  induction packs generalizing indices n with
  | nil =>
    cases indices with
    | nil => exact .nil
    | cons => contradiction
  | cons pack packs ih =>
    cases indices with
    | nil => contradiction
    | cons index indices =>
      rw [elementDistance?] at h
      split at h
      · rename_i inside
        obtain ⟨inner, found, _⟩ := Option.map_eq_some_iff.mp h
        exact .cons inside (ih found)
      · contradiction

namespace Realizes

/-- The layout finds the packs around a leaf. -/
theorem packChain? (h : layout.Realizes w parts leaves) {leaf : Leaf} (member : leaf ∈ leaves) :
    layout.packChain? leaf.slot = some leaf.packs := by
  have linked := h.linked leaf member
  have chain := chainFrom_linked (layout.packs.size - leaf.packs.length) linked []
  rw [Nat.sub_add_cancel linked.length_le, Option.or_none, List.append_nil] at chain
  unfold Layout.packChain?
  rw [h.entry leaf member]
  show layout.chainFrom _ leaf.packs.getLast? [] = _
  rw [chain]
  cases layout.packs.size - leaf.packs.length <;> rfl

/-- Every slot has a leaf. -/
theorem exists_leaf (h : layout.Realizes w parts leaves) {slot : Nat} {part : Part}
    (known : parts[slot]? = some part) :
    ∃ leaf ∈ leaves, leaf.slot = slot ∧ (Legend.of layout.packs 0 parts).part leaf.slot = part := by
  have inside := (List.getElem?_eq_some_iff.mp known).1
  obtain ⟨leaf, member, rfl⟩ := List.mem_map.mp
    (h.slots.mem_iff.mpr (List.mem_range.mpr inside))
  refine ⟨leaf, member, rfl, ?_⟩
  show (parts[leaf.slot - 0]?).getD _ = part
  rw [Nat.sub_zero, known]
  rfl

theorem expands (h : layout.Realizes w parts leaves) : layout.Expands parts := by
  refine ⟨h.size_eq, fun slot part known => ?_⟩
  obtain ⟨leaf, member, rfl, part_eq⟩ := h.exists_leaf known
  obtain ⟨packs, found, same⟩ := mapM_pack?_linked parts (h.linked leaf member)
  refine ⟨leaf.packs, packs, h.packChain? member, found, ?_⟩
  rw [← part_eq, ← (h.arranged.lies leaf member).lengths_eq, ← same, List.map_map]
  rfl

/-- An element begins where the layout says. -/
theorem begins (h : layout.Realizes w parts leaves) {leaf : Leaf} (member : leaf ∈ leaves)
    {indices : List Nat} (has : layout.HasElement leaf.slot indices) :
    ∃ x, layout.elementOffset w leaf.slot indices = some (some x) ∧
      (Legend.of layout.packs 0 parts).Begins leaf indices x := by
  obtain ⟨ids, packs, chain, found, inside⟩ := has
  obtain rfl := Option.some.inj ((h.packChain? member).symm.trans chain)
  obtain ⟨packs', found', same⟩ := mapM_pack?_linked parts (h.linked leaf member)
  obtain rfl := Option.some.inj (found.symm.trans found')
  obtain ⟨n, distance, walk⟩ := elementDistance?_of_lt inside
  have begins : (Legend.of layout.packs 0 parts).Begins leaf indices (leaf.offset + n) :=
    ⟨n, same ▸ walk, rfl⟩
  have ends := (h.arranged.lies leaf member).inside indices _ begins
  refine ⟨leaf.offset + n, ?_, begins⟩
  unfold elementOffset
  rw [h.entry leaf member]
  show ((layout.packChain? leaf.slot).bind fun chain => (chain.mapM layout.pack?).bind _) = _
  rw [chain, Option.bind_some, found, Option.bind_some, distance, Option.map_some]
  have fits := h.fits.mono (Nat.le_trans (Nat.le_add_right _ _) ends)
  exact congrArg (fun x => some (some x)) fits.wrap

end Realizes

end Layout

/-! ## Elements -/

/-- The elements of a slot are at the indices below the lengths of the arrays around it. -/
theorem Layout.Expands.hasElement_iff {layout : Layout} {parts : List Part}
    (h : layout.Expands parts) {slot : Nat} {part : Part} (known : parts[slot]? = some part)
    {indices : List Nat} :
    layout.HasElement slot indices ↔ List.Forall₂ (· < ·) indices (lengths part.path) := by
  obtain ⟨ids, packs, chain, found, same⟩ := h.2 slot part known
  rw [← same, List.forall₂_map_right_iff]
  constructor
  · rintro ⟨_, _, chain', found', inside⟩
    obtain rfl := Option.some.inj (chain.symm.trans chain')
    obtain rfl := Option.some.inj (found.symm.trans found')
    exact inside
  · exact fun inside => ⟨ids, packs, chain, found, inside⟩

/-- What a layout of a root struct realizes. -/
theorem realizes_of_layOut {schema : Schema} {root : String} {options : Options} {layout : Layout}
    (laid : schema.layOut root options = .ok layout) :
    ∃ shape leaves, schema.RootShape root shape ∧
      layout.Realizes .bits64 shape.parts leaves := by
  obtain ⟨t, _, _, done, sound, rfl⟩ := (layOut_spec schema root options).of_ok laid
  obtain ⟨shape, rootShape, realizes⟩ := sound.shape
  obtain ⟨realized, _⟩ := (Template.ensures_toLayout realizes).of_ok done
  exact ⟨shape, _, rootShape, realized⟩

/-- Two elements are apart, unless they are never live together. -/
theorem elements_apart {schema : Schema} {root : String} {options : Options} {layout : Layout}
    (laid : schema.layOut root options = .ok layout) :
    ∃ shape, schema.RootShape root shape ∧ layout.Expands shape.parts ∧
      ∀ slot slot' part part' indices indices', shape.parts[slot]? = some part →
        shape.parts[slot']? = some part' → layout.HasElement slot indices →
        layout.HasElement slot' indices' → (slot, indices) ≠ (slot', indices') →
        ¬Exclusive part.path indices part'.path indices' →
        ∃ x y, layout.elementOffset .bits64 slot indices = some (some x) ∧
          layout.elementOffset .bits64 slot' indices' = some (some y) ∧
          (x + part.size ≤ y ∨ y + part'.size ≤ x) := by
  obtain ⟨shape, leaves, rootShape, realizes⟩ := realizes_of_layOut laid
  refine ⟨shape, rootShape, realizes.expands, ?_⟩
  intro slot slot' part part' indices indices' known known' has has' differ live
  obtain ⟨l, here, rfl, rfl⟩ := realizes.exists_leaf known
  obtain ⟨m, there, rfl, rfl⟩ := realizes.exists_leaf known'
  obtain ⟨x, offset, begins⟩ := realizes.begins here has
  obtain ⟨y, offset', begins'⟩ := realizes.begins there has'
  exact ⟨x, y, offset, offset',
    realizes.arranged.apart l here m there indices indices' x y begins begins' differ live⟩

def samplesShape : Shape :=
  .record [.leaf 2 2, .array 2 (.variant [.leaf 4 4, .array 3 (.leaf 1 1)])]

theorem rootShape_samples : samples.RootShape "Sample" samplesShape := by
  have small : HasShape samples ⟨2⟩ (.leaf 1 1) := .primitive (p := .uint8) rfl
  have items : HasShape samples ⟨5⟩ (.array 2 (.variant [.leaf 4 4, .array 3 (.leaf 1 1)])) :=
    .array rfl (.variant rfl (.cons (.primitive (p := .uint32) rfl)
      (.cons (.array rfl small) .nil)))
  exact ⟨_, _, rfl, .cons (.primitive (p := .uint16) rfl) (.cons items .nil), rfl⟩

theorem samples_number :
    samplesShape.parts[2]? = some ⟨[.field 1, .element 2, .arm 0], 4, 4⟩ := rfl

/-- The number in one item and a byte in the other. -/
theorem elements_apart_samples :
    ∃ layout x y, samples.layOut "Sample" .default = .ok layout ∧
      layout.elementOffset .bits64 2 [1] = some (some x) ∧
      layout.elementOffset .bits64 3 [0, 2] = some (some y) ∧ (x + 4 ≤ y ∨ y + 1 ≤ x) := by
  obtain ⟨layout, laid, _⟩ := samples_layOut
  obtain ⟨shape, rootShape, expands, apart⟩ := elements_apart laid
  obtain rfl := rootShape_unique rootShape rootShape_samples
  have byte : samplesShape.parts[3]? =
      some ⟨[.field 1, .element 2, .arm 1, .element 3], 1, 1⟩ := rfl
  have live : ¬Exclusive [.field 1, .element 2, .arm 0] [1]
      [.field 1, .element 2, .arm 1, .element 3] [0, 2] :=
    (exclusive_arms_iff [.field 1, .element 2] (by decide)).not.mpr (by decide)
  obtain ⟨x, y, offset, offset', between⟩ := apart 2 3 _ _ [1] [0, 2] samples_number byte
    ((expands.hasElement_iff samples_number).mpr (by simp [lengths]))
    ((expands.hasElement_iff byte).mpr (by simp [lengths])) (by decide) live
  exact ⟨layout, x, y, laid, offset, offset', between⟩

/-- Every element is aligned and inside of the fixed part, and the data of variable length begins
at the least place behind it that is aligned for all of the data. -/
theorem elements_aligned {schema : Schema} {root : String} {options : Options} {layout : Layout}
    (laid : schema.layOut root options = .ok layout) :
    ∃ shape, schema.RootShape root shape ∧ layout.Expands shape.parts ∧
      (∀ slot part, shape.parts[slot]? = some part →
        (∃ field, layout.fields[slot]? = some field ∧ field.align.bytes = part.unit) ∧
        ∀ indices, layout.HasElement slot indices →
          ∃ x, layout.elementOffset .bits64 slot indices = some (some x) ∧ part.unit ∣ x ∧
            x + part.size ≤ layout.fixedSize) ∧
      (∃ fields, schema.structFields? root = some fields ∧
        layout.trailing.map (·.name) = (fields.filter schema.isTrailing).map (·.name)) ∧
      if layout.trailing = [] then layout.varStart = none
      else ∃ v, layout.varStart = some v ∧ layout.fixedSize ≤ v ∧
        (∀ field ∈ layout.trailing, field.align.bytes ∣ v) ∧
        ∀ u, layout.fixedSize ≤ u → (∀ field ∈ layout.trailing, field.align.bytes ∣ u) →
          v ≤ u := by
  obtain ⟨t, _, _, done, sound, rfl⟩ := (layOut_spec schema root options).of_ok laid
  obtain ⟨shape, rootShape, realizes⟩ := sound.shape
  obtain ⟨realized, trailing, varStart⟩ := (Template.ensures_toLayout realizes).of_ok done
  refine ⟨shape, rootShape, realized.expands, fun slot part known => ?_, ?_, ?_⟩
  · obtain ⟨leaf, member, rfl, rfl⟩ := realized.exists_leaf known
    have lies := realized.arranged.lies leaf member
    refine ⟨⟨leaf.entry, realized.entry leaf member, lies.unit_eq⟩, fun indices has => ?_⟩
    obtain ⟨x, offset, begins⟩ := realized.begins member has
    exact ⟨x, offset, lies.unit_eq ▸ lies.aligned indices x begins,
      lies.inside indices x begins⟩
  · obtain ⟨fields, _, declared, _⟩ := rootShape
    exact ⟨fields, declared, trailing ▸ sound.trailing fields declared⟩
  · rw [trailing]
    exact Template.varStart?_spec varStart

theorem elements_aligned_samples :
    ∃ layout x, samples.layOut "Sample" .default = .ok layout ∧
      layout.elementOffset .bits64 2 [1] = some (some x) ∧ 4 ∣ x ∧ x + 4 ≤ layout.fixedSize := by
  obtain ⟨layout, laid, _⟩ := samples_layOut
  obtain ⟨shape, rootShape, expands, aligned, _⟩ := elements_aligned laid
  obtain rfl := rootShape_unique rootShape rootShape_samples
  obtain ⟨x, offset, multiple, inside⟩ := (aligned 2 _ samples_number).2 [1]
    ((expands.hasElement_iff samples_number).mpr (by simp [lengths]))
  exact ⟨layout, x, laid, offset, multiple, inside⟩

end PackedLayout
