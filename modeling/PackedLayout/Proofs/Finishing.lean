import PackedLayout.Proofs.Templates

/-!
# From a template to a layout

A layout has the zones of its template one behind the other, largest class first, and an entry for
every slot. No entry is written twice, and none is left out:

- `Realizes.leaves_perm`, `Realizes.arranged`: the leaves of the zones at their places;
- `ensures_write`: writing the entry of a leaf whose slot is still empty;
- `ensures_fieldOffsets`, `ensures_toLayout`: the table of entries, and the layout.
-/

namespace PackedLayout

namespace Alignment

theorem le_eight (a : Alignment) : a ≤ eight := by cases a <;> decide

/-- What is found first among the classes is the largest. -/
theorem le_of_find?_descending {p : Alignment → Bool} {a b : Alignment}
    (found : descending.find? p = some b) (holds : p a = true) : a ≤ b := by
  obtain ⟨_, larger, smaller, split, none⟩ := List.find?_eq_some_iff_append.mp found
  have falling : descending.Pairwise (fun a b => b ≤ a) := by decide
  have listed := a.mem_descending
  rw [split] at falling listed
  obtain before | after := List.mem_append.mp listed
  · have fails := none a before
    rw [holds] at fails
    exact absurd fails (by decide)
  · obtain rfl | later := List.mem_cons.mp after
    · exact a.le_refl
    · exact (List.pairwise_cons.mp (List.pairwise_append.mp falling).2.1).1 a later

end Alignment

/-- The entry of a leaf whose offset counts from the start of the layout. -/
def Leaf.entry (leaf : Leaf) : FieldOffset :=
  ⟨leaf.offset, leaf.slot, leaf.align, leaf.packs.getLast?⟩

/-- A layout with leaves that realize some parts, each with its entry. -/
structure Layout.Realizes (w : Width) (layout : Layout) (parts : List Part) (leaves : List Leaf) :
    Prop where
  slots : (leaves.map (·.slot)).Perm (List.range parts.length)
  size_eq : layout.fields.size = parts.length
  size_le : parts.length ≤ maxSlots
  entry : ∀ leaf ∈ leaves, layout.fields[leaf.slot]? = some leaf.entry
  arranged : (Legend.of layout.packs 0 parts).Arranged layout.fixedSize .eight leaves
  linked : ∀ leaf ∈ leaves, Linked layout.packs layout.packs.size none leaf.packs
  fits : w.Fits layout.fixedSize

namespace Template

/-- The zones of the template at their places in a layout. -/
def pieces (t : Template) (classes : List Alignment) : List (Nat × Item) :=
  classes.map fun a => (t.footprint.zoneStart .unbounded a, (t.zones.get a).toItem a)

/-- The leaves of the template with their offsets in a layout. -/
def leaves (t : Template) (classes : List Alignment) : List Leaf :=
  Legend.mergedLeaves (t.pieces classes)

theorem leaves_cons (t : Template) (a : Alignment) (classes : List Alignment) :
    t.leaves (a :: classes) =
      (t.zones.get a).leaves.map (Legend.moved (t.footprint.zoneStart .unbounded a)) ++
        t.leaves classes := rfl

theorem slots_leaves (t : Template) (classes : List Alignment) :
    (t.leaves classes).map (·.slot) =
      classes.flatMap fun a => (t.zones.get a).leaves.map (·.slot) := by
  induction classes with
  | nil => rfl
  | cons a classes ih =>
    rw [leaves_cons, List.map_append, ih, List.map_map, List.flatMap_cons]
    rfl

namespace Realizes

variable {w : Width} {t : Template} {parts : List Part}

/-- The zones without a size have no leaves to leave out. -/
theorem flatMap_zoneItems (h : t.Realizes w parts) (classes : List Alignment) :
    (zoneItems t.zones classes).flatMap (·.leaves) =
      classes.flatMap fun a => (t.zones.get a).leaves := by
  induction classes with
  | nil => rfl
  | cons a classes ih =>
    rw [zoneItems_cons, List.flatMap_cons]
    split
    · rename_i flat
      rw [h.empty a flat, List.nil_append, ih]
    · rw [List.flatMap_cons, ih]
      rfl

/-- Every slot is in one zone, once. -/
theorem leaves_perm (h : t.Realizes w parts) :
    ((t.leaves Alignment.descending).map (·.slot)).Perm (List.range parts.length) := by
  have slots := h.zones.slots
  rw [h.flatMap_zoneItems, List.map_flatMap, ← t.slots_leaves, ← List.range_eq_range'] at slots
  exact slots

theorem slot_lt (h : t.Realizes w parts) {leaf : Leaf}
    (member : leaf ∈ t.leaves Alignment.descending) : leaf.slot < parts.length :=
  List.mem_range.mp (h.leaves_perm.mem_iff.mp (List.mem_map_of_mem member))

/-- A zone is an item that is sound, or it has no leaves. -/
theorem sound_or_empty (h : t.Realizes w parts) (a : Alignment) :
    (t.zones.get a).leaves = [] ∨
      ((t.zones.get a).toItem a).Sound t.packs 0 (Legend.of t.packs 0 parts) := by
  by_cases flat : (t.zones.get a).size = 0
  · exact .inl (h.empty a flat)
  · refine .inr (h.zones.sound _ (List.mem_map.mpr ⟨a, ?_, rfl⟩))
    exact List.mem_filter.mpr ⟨a.mem_descending, by simpa using flat⟩

theorem linked (h : t.Realizes w parts) {leaf : Leaf}
    (member : leaf ∈ t.leaves Alignment.descending) :
    Linked t.packs t.packs.size none leaf.packs := by
  obtain ⟨_, piece, member⟩ := List.mem_flatMap.mp member
  obtain ⟨a, _, rfl⟩ := List.mem_map.mp piece
  obtain ⟨leaf, inner, rfl⟩ := List.mem_map.mp member
  obtain none | sound := h.sound_or_empty a
  · change leaf ∈ (t.zones.get a).leaves at inner
    rw [none] at inner
    exact absurd inner List.not_mem_nil
  · exact sound.linked leaf inner

/-- The leaves are arranged in the fixed part of a layout. -/
theorem arranged (h : t.Realizes w parts) :
    (Legend.of t.packs 0 parts).Arranged (t.footprint.totalBytes .unbounded) .eight
      (t.leaves Alignment.descending) := by
  refine Legend.Arranged.merge (fun p piece => ?_) ?_
  · obtain ⟨a, _, rfl⟩ := List.mem_map.mp piece
    refine ⟨?_, a.le_eight, t.footprint.bytes_dvd_zoneStart a, ?_⟩
    · obtain none | sound := h.sound_or_empty a
      · have absent (leaf : Leaf) (inner : leaf ∈ (t.zones.get a).leaves) : False :=
          absurd (none ▸ inner) List.not_mem_nil
        exact ⟨fun leaf inner => (absent leaf inner).elim,
          fun leaf inner => (absent leaf inner).elim⟩
      · exact sound.arranged
    · have inside := t.footprint.zoneStart_add_bytes_le a
      rw [h.bytes a] at inside
      exact inside
  · have falling : Alignment.descending.Pairwise (fun a b => b < a) := by decide
    refine List.pairwise_map.mpr (falling.imp fun {a b} below => .inl ?_)
    have behind := t.footprint.zoneStart_add_bytes_le_zoneStart below
    rw [h.bytes a] at behind
    exact behind

end Realizes

/-! ## The table of entries -/

/-- Some leaves wait with their slots empty, and the other leaves of a list have entries. -/
structure Written (all : List Leaf) (slots : Nat) (waiting : List Leaf)
    (fields : Array FieldOffset) : Prop where
  size_eq : fields.size = slots
  fresh : ∀ leaf ∈ waiting, fields[leaf.slot]? = some .empty
  distinct : (waiting.map (·.slot)).Nodup
  entry : ∀ leaf ∈ all, leaf ∈ waiting ∨ fields[leaf.slot]? = some leaf.entry

/-- Writing the entry of a leaf that waits. -/
theorem ensures_write {w : Width} {all waiting : List Leaf} {slots start : Nat} {leaf : Leaf}
    {fields : Array FieldOffset}
    (h : Written all slots (Legend.moved start leaf :: waiting) fields)
    (fits : w.Fits (start + leaf.offset)) (small : leaf.slot < maxSlots) :
    Ensures (fun _ => False) (Written all slots waiting) (write w start fields leaf) := by
  have empty : fields[leaf.slot]? = some .empty :=
    h.fresh (Legend.moved start leaf) List.mem_cons_self
  have inside : leaf.slot < fields.size := (Array.getElem?_eq_some_iff.mp empty).1
  obtain ⟨absent, distinct⟩ := List.nodup_cons.mp h.distinct
  have written : (⟨w.wrap (start + leaf.offset), leaf.slot % 0x10000, leaf.align,
      leaf.packs.getLast?⟩ : FieldOffset) = (Legend.moved start leaf).entry := by
    rw [fits.wrap, Nat.add_comm start, Nat.mod_eq_of_lt (Nat.lt_trans small (by decide))]
    rfl
  unfold write
  rw [empty]
  show Written all slots waiting (fields.setIfInBounds leaf.slot _)
  rw [written]
  refine ⟨?_, fun other member => ?_, distinct, fun other member => ?_⟩
  · rw [Array.size_setIfInBounds]
    exact h.size_eq
  · have differ : leaf.slot ≠ other.slot := fun same =>
      absent (List.mem_map.mpr ⟨other, member, same.symm⟩)
    rw [Array.getElem?_setIfInBounds_ne differ]
    exact h.fresh other (List.mem_cons_of_mem _ member)
  · by_cases same : leaf.slot = other.slot
    · obtain waits | done := h.entry other member
      · obtain rfl | waits := List.mem_cons.mp waits
        · exact .inr (Array.getElem?_setIfInBounds_self_of_lt inside)
        · exact .inl waits
      · -- a leaf of this slot had no entry yet
        rw [← same, empty] at done
        have slot := congrArg FieldOffset.fieldId (Option.some.inj done)
        change 0xffff = other.slot at slot
        rw [← same] at slot
        exact absurd small (by rw [← slot]; decide)
    · rw [Array.getElem?_setIfInBounds_ne same]
      obtain waits | done := h.entry other member
      · obtain rfl | waits := List.mem_cons.mp waits
        · exact absurd rfl same
        · exact .inl waits
      · exact .inr done

/-- Writing the entries of the leaves of one zone. -/
theorem ensures_writeZone {w : Width} {all later : List Leaf} {slots start : Nat}
    {leaves : List Leaf} {fields : Array FieldOffset}
    (h : Written all slots (leaves.map (Legend.moved start) ++ later) fields)
    (fits : ∀ leaf ∈ leaves, w.Fits (start + leaf.offset))
    (small : ∀ leaf ∈ leaves, leaf.slot < maxSlots) :
    Ensures (fun _ => False) (Written all slots later) (leaves.foldlM (write w start) fields) := by
  refine (Ensures.foldlM (fun rest fields => (∀ leaf ∈ rest, leaf ∈ leaves) ∧
    Written all slots (rest.map (Legend.moved start) ++ later) fields)
    (fun leaf rest fields ⟨within, h⟩ => ?_) ⟨fun _ member => member, h⟩).mono
      fun fields ⟨_, h⟩ => h
  have member := within leaf List.mem_cons_self
  exact (ensures_write h (fits leaf member) (small leaf member)).mono fun fields further =>
    ⟨fun other inner => within other (List.mem_cons_of_mem _ inner), further⟩

theorem isEmpty_entry {leaf : Leaf} (small : leaf.slot < maxSlots) :
    leaf.entry.isEmpty = false := by
  have differ : leaf.slot ≠ 0xffff := Nat.ne_of_lt small
  simp [FieldOffset.isEmpty, Leaf.entry, differ]

namespace Realizes

variable {w : Width} {t : Template} {parts : List Part}

theorem slot_lt_maxSlots (h : t.Realizes w parts) {leaf : Leaf}
    (member : leaf ∈ t.leaves Alignment.descending) : leaf.slot < maxSlots :=
  Nat.lt_of_lt_of_le (h.slot_lt member) (h.slots_eq ▸ h.slots_le)

/-- At first all leaves wait. -/
theorem written_start (h : t.Realizes w parts) :
    Written (t.leaves Alignment.descending) parts.length (t.leaves Alignment.descending)
      (Array.replicate t.slots FieldOffset.empty) where
  size_eq := by rw [Array.size_replicate, h.slots_eq]
  fresh := by
    intro leaf member
    rw [Array.getElem?_replicate, h.slots_eq, if_pos (h.slot_lt member)]
  distinct := h.leaves_perm.nodup_iff.mpr List.nodup_range
  entry := fun leaf member => .inl member

/-- At last no entry is empty. -/
theorem findIdx?_isEmpty (h : t.Realizes w parts) {fields : Array FieldOffset}
    (done : Written (t.leaves Alignment.descending) parts.length [] fields) :
    fields.findIdx? FieldOffset.isEmpty = none := by
  refine Array.findIdx?_eq_none_iff.mpr fun field member => ?_
  obtain ⟨slot, inside, rfl⟩ := Array.mem_iff_getElem.mp member
  have listed : slot ∈ (t.leaves Alignment.descending).map (·.slot) :=
    h.leaves_perm.mem_iff.mpr (List.mem_range.mpr (done.size_eq ▸ inside))
  obtain ⟨leaf, own, rfl⟩ := List.mem_map.mp listed
  have same := (done.entry leaf own).resolve_left List.not_mem_nil
  rw [Array.getElem?_eq_getElem inside] at same
  rw [Option.some.inj same]
  exact isEmpty_entry (h.slot_lt_maxSlots own)

end Realizes

/-- Every slot gets the entry of its leaf, and no fault is met. -/
theorem ensures_fieldOffsets {w : Width} {t : Template} {parts : List Part}
    (h : t.Realizes w parts) :
    Ensures (fun _ => False)
      (fun fields => fields.size = parts.length ∧
        ∀ leaf ∈ t.leaves Alignment.descending, fields[leaf.slot]? = some leaf.entry)
      (t.fieldOffsets w) := by
  have moved {a : Alignment} {leaf : Leaf} (member : leaf ∈ (t.zones.get a).leaves) :
      Legend.moved (t.footprint.zoneStart .unbounded a) leaf ∈ t.leaves Alignment.descending :=
    List.mem_flatMap.mpr ⟨_, List.mem_map_of_mem a.mem_descending, List.mem_map_of_mem member⟩
  unfold fieldOffsets
  refine (Ensures.foldlM (fun classes fields =>
    Written (t.leaves Alignment.descending) parts.length (t.leaves classes) fields)
    (fun a classes fields now => ?_) h.written_start).bind fun fields done => ?_
  · rw [h.counts.zoneStart a]
    refine ensures_writeZone now (fun leaf member => ?_) fun leaf member => ?_
    · have within := (h.arranged.lies _ (moved member)).offset_le
      rw [Nat.add_comm]
      exact Width.Fits.mono h.counts within
    · have small := h.slot_lt_maxSlots (moved member)
      exact small
  · rw [h.findIdx?_isEmpty done]
    exact ⟨done.size_eq, fun leaf member =>
      (done.entry leaf member).resolve_left List.not_mem_nil⟩

/-! ## The layout -/

/-- The data of variable length begins at the least place that is aligned for all of it. -/
theorem varStart?_spec {w : Width} {t : Template} {fixedSize : Nat} {varStart : Option Nat}
    (h : t.varStart? w fixedSize = some varStart) :
    if t.trailing = [] then varStart = none
    else ∃ v, varStart = some v ∧ fixedSize ≤ v ∧ (∀ field ∈ t.trailing, field.align.bytes ∣ v) ∧
      ∀ u, fixedSize ≤ u → (∀ field ∈ t.trailing, field.align.bytes ∣ u) → v ≤ u := by
  unfold varStart? at h
  cases found : Alignment.descending.find? fun a => t.trailing.any (·.align == a) with
  | none =>
    have absent : t.trailing = [] := by
      apply List.eq_nil_iff_forall_not_mem.mpr
      intro field member
      have none := List.find?_eq_none.mp found field.align field.align.mem_descending
      exact none (List.any_eq_true.mpr ⟨field, member, beq_self_eq_true _⟩)
    rw [found] at h
    rw [if_pos absent]
    exact (Option.some.inj h).symm
  | some largest =>
    rw [found] at h
    obtain ⟨v, rounded, rfl⟩ := Option.map_eq_some_iff.mp h
    obtain ⟨le, dvd, _, least⟩ := Alignment.roundUp?_spec rounded
    have listed := List.find?_some found
    obtain ⟨field, member, same⟩ := List.any_eq_true.mp listed
    have own : field.align = largest := by simpa using same
    rw [if_neg (List.ne_nil_of_mem member)]
    refine ⟨v, rfl, le, fun other inner => Nat.dvd_trans (Alignment.bytes_dvd_of_le ?_) dvd,
      fun u above aligned => least u above (own ▸ aligned field member)⟩
    exact Alignment.le_of_find?_descending found
      (List.any_eq_true.mpr ⟨other, inner, beq_self_eq_true _⟩)

/-- A layout that realizes some parts, from a template that does. -/
theorem ensures_toLayout {w : Width} {t : Template} {parts : List Part} (h : t.Realizes w parts) :
    Ensures (· = Failure.overflow)
      (fun layout => layout.Realizes w parts (t.leaves Alignment.descending) ∧
        layout.trailing = t.trailing ∧ t.varStart? w layout.fixedSize = some layout.varStart)
      (t.toLayout w) := by
  unfold toLayout
  have written := (ensures_fieldOffsets h).weaken (· = Failure.overflow) nofun
  refine written.bind fun fields ⟨size, entry⟩ => ?_
  apply (ensures_orOverflow (t.varStart? w (t.footprint.totalBytes w))).bind
  intro v found
  refine ⟨⟨h.leaves_perm, size, h.slots_eq ▸ h.slots_le, entry, ?_, fun _ => h.linked, ?_⟩, rfl,
    found⟩
  · show Legend.Arranged _ (t.footprint.totalBytes w) _ _
    rw [h.counts.totalBytes]
    exact h.arranged
  · show w.Fits (t.footprint.totalBytes w)
    rw [h.counts.totalBytes]
    exact h.counts

/-- But for its entries and its end, a layout is read off its template. -/
theorem of_toLayout {w : Width} {t : Template} {layout : Layout}
    (done : t.toLayout w = .ok layout) : layout = {
      name := t.name
      fields := layout.fields
      packs := t.packs
      variants := t.variants
      trailing := t.trailing
      zones := t.footprint
      fixedSize := t.footprint.totalBytes w
      varStart := layout.varStart
      warnings := t.warnings } := by
  obtain ⟨fields, _, done⟩ := bind_eq_ok.mp done
  obtain ⟨varStart, _, done⟩ := bind_eq_ok.mp done
  cases done
  rfl

end Template

/-! ## Laying out a root -/

theorem layOut_eq (schema : Schema) (root : String) (options : Options) :
    schema.layOut root options =
      (Engine.rootTemplate { schema, options } root .empty).1.bind fun r =>
        (r.1.toLayout .bits64).mapError (Failure.locate r.2) := rfl

/-- A root struct is laid out from a sound template, or the schema is to blame. -/
theorem layOut_spec (schema : Schema) (root : String) (options : Options) :
    Ensures External
      (fun layout => ∃ t span, (Engine.rootTemplate { schema, options } root .empty).1 =
          .ok (t, span) ∧ t.toLayout .bits64 = .ok layout ∧ t.Sound schema .bits64 ∧
          t.name = root)
      (schema.layOut root options) := by
  have template := rootTemplate_spec { schema, options } root
  rw [layOut_eq]
  cases made : (Engine.rootTemplate { schema, options } root .empty).1 with
  | error e => exact template.of_error made
  | ok r =>
    obtain ⟨sound, same⟩ := template.of_ok made
    obtain ⟨shape, _, realizes⟩ := sound.shape
    have finished := Template.ensures_toLayout realizes
    show Ensures External _ ((r.1.toLayout .bits64).mapError (Failure.locate r.2))
    cases done : r.1.toLayout .bits64 with
    | error failure => exact external_locate (finished.of_error done)
    | ok layout => exact ⟨r.1, r.2, rfl, done, sound, same⟩

end PackedLayout
