import PackedLayout.Proofs.Outcomes
import PackedLayout.Proofs.Repeating
import PackedLayout.Proofs.Zones

/-!
# What is put into a draft

Every way of putting something into a draft gives out slots and packs, and puts items into the
container that realize the parts of what was put in. Where it fails, the schema is to blame.

- `Draft.Grows`: a draft with more parts in it, and `Grows.trans`, `Grows.under`;
- `ensures_putLeaf`, `ensures_putZones`, `ensures_putArray`, `ensures_embed`,
  `ensures_putVariant`: what each way puts in;
- `keepsReports_putLeaf`, `of_putVariant`, `of_embed`: what becomes of the tables.
-/

namespace PackedLayout

/-- The layout is not to blame for the error. -/
def External (e : LayoutError) : Prop := e.isInternal = false

theorem external_overflow {span : Span} (e : LayoutError) (h : e = .overflow span) :
    External e := by
  rw [h]
  exact rfl

theorem external_locate {span : Span} {failure : Failure} (h : failure = .overflow) :
    External (failure.locate span) := by
  rw [h]
  exact rfl

/-- Putting items into one container gives another. -/
abbrev PutAll (w : Width) (items : List Item) (before after : Container) : Prop :=
  items.foldlM (fun container item => container.put? w item) before = some after

theorem PutAll.append {w : Width} {items others : List Item} {before mid after : Container}
    (first : PutAll w items before mid) (second : PutAll w others mid after) :
    PutAll w (items ++ others) before after := by
  unfold PutAll at *
  rw [List.foldlM_append, first]
  exact second

theorem PutAll.cons {w : Width} {item : Item} {items : List Item}
    {before mid after : Container} (first : before.put? w item = some mid)
    (second : PutAll w items mid after) : PutAll w (item :: items) before after := by
  unfold PutAll at *
  rw [List.foldlM_cons, first]
  exact second

theorem PutAll.singleton {w : Width} {item : Item} {before after : Container}
    (h : before.put? w item = some after) : PutAll w [item] before after := PutAll.cons h rfl

namespace Draft

variable {w : Width} {span : Span} {before mid after draft : Draft} {parts others : List Part}

/-- More parts are in the draft than before. -/
structure Grows (w : Width) (before after : Draft) (parts : List Part) : Prop where
  slots_eq : after.slots = before.slots + parts.length
  slots_le : after.slots ≤ maxSlots
  packs : Extends before.packs after.packs
  items : ∃ items, PutAll w items before.container after.container ∧
    Realizes after.packs before.packs.size before.slots parts items

theorem grows_nil (le : draft.slots ≤ maxSlots) : Grows w draft draft [] :=
  ⟨rfl, le, Extends.refl _, [], rfl, Realizes.nil _ _ _⟩

theorem Grows.trans (first : Grows w before mid parts) (second : Grows w mid after others) :
    Grows w before after (parts ++ others) where
  slots_eq := by
    rw [second.slots_eq, first.slots_eq, List.length_append, Nat.add_assoc]
  slots_le := second.slots_le
  packs := first.packs.trans second.packs
  items := by
    obtain ⟨items, put, realizes⟩ := first.items
    obtain ⟨later, put', realizes'⟩ := second.items
    rw [first.slots_eq] at realizes'
    exact ⟨items ++ later, put.append put',
      realizes.append realizes' second.packs first.packs.size_le⟩

theorem Grows.under (h : Grows w before after parts) (step : Step)
    (plain : ∀ length, step ≠ .element length) :
    Grows w before after (parts.map (Part.under step)) where
  slots_eq := by
    rw [List.length_map]
    exact h.slots_eq
  slots_le := h.slots_le
  packs := h.packs
  items := by
    obtain ⟨items, put, realizes⟩ := h.items
    exact ⟨items, put, realizes.under step plain⟩

/-! ## Items and leaves -/

theorem ensures_put (w : Width) (span : Span) (item : Item) (draft : Draft) :
    Ensures (· = .overflow span) (fun after => draft.container.put? w item = some after.container ∧
      after = { draft with container := after.container }) (draft.put w span item) := by
  unfold Draft.put
  split
  · rename_i container put
    exact ⟨put, rfl⟩
  · exact rfl

theorem ensures_putLeaf (w : Width) (span : Span) (draft : Draft) {align : Alignment} {size : Nat}
    (pos : 0 < size)
    (whole : align.bytes ∣ size) :
    Ensures External (fun after => Grows w draft after [⟨[], size, align.bytes⟩])
      (draft.putLeaf w span align size) := by
  unfold putLeaf
  split
  · rename_i room
    refine ((ensures_put w span _ _).weaken External external_overflow).mono
      fun after ⟨put, same⟩ => ?_
    rw [same]
    exact ⟨rfl, room, Extends.refl _, _, PutAll.singleton put,
      Realizes.leaf draft.packs draft.packs.size draft.slots pos whole⟩
  · exact rfl

/-! ## Zones -/

/-- Zones are put in as items, and nothing else changes. -/
theorem ensures_putZones (w : Width) (span : Span) (zones : PerClass Zone) (draft : Draft) :
    Ensures (· = .overflow span) (fun after => after = { draft with container := after.container } ∧
        PutAll w (zoneItems zones Alignment.descending) draft.container after.container)
      (draft.putZones w span zones) := by
  unfold putZones
  refine (Ensures.foldlM (fun classes (now : Draft) =>
    now = { draft with container := now.container } ∧
      ∀ last, PutAll w (zoneItems zones classes) now.container last →
        PutAll w (zoneItems zones Alignment.descending) draft.container last) ?_
    ⟨rfl, fun _ put => put⟩).mono fun after ⟨same, rest⟩ => ⟨same, rest _ rfl⟩
  rintro a classes now ⟨same, rest⟩
  split
  · rename_i empty
    refine ⟨same, fun last put => rest last ?_⟩
    rwa [zoneItems_cons, if_pos empty]
  · rename_i nonempty
    refine (ensures_put w span _ now).mono fun after ⟨put, next⟩ => ⟨?_, fun last later => ?_⟩
    · rw [next, same]
    · apply rest
      rw [zoneItems_cons, if_neg nonempty]
      exact PutAll.cons put later

/-- The storage of a variant is put in zone by zone, unless it had to be free of waste. -/
theorem ensures_putVariant {options : Options} {tag arms : Nat} {r : Resolution} :
    Ensures External (fun after => after.slots = draft.slots ∧ after.packs = draft.packs ∧
        PutAll w (zoneItems (r.storage.zones w) Alignment.descending) draft.container
          after.container)
      (draft.putVariant w options span tag arms r) := by
  unfold putVariant
  split
  · exact rfl
  · refine ((ensures_putZones w span _ _).weaken External external_overflow).mono
      fun after ⟨same, put⟩ => ⟨?_, ?_, put⟩
    · rw [same]
    · rw [same]

/-! ## Arrays -/

/-- Some classes of an array are in the draft, and the others wait. -/
structure Repeats (w : Width) (outer : Draft) (first base : Nat) (parts : List Part)
    (length : Nat) (element : PerClass Zone) (classes : List Alignment) (now : Draft) : Prop where
  slots : now.slots = outer.slots
  packs : ∀ before, Extends before outer.packs → before.size = first → Extends before now.packs
  room : first ≤ now.packs.size
  ready : ∃ ready, PutAll w ready outer.container now.container ∧
    Repeating now.packs first base parts length ready (zoneItems element classes)

theorem ensures_putPack {outer : Draft} {first base length : Nat} {element : PerClass Zone}
    {a : Alignment} {classes : List Alignment} (pos : 0 < length)
    (h : Repeats w outer first base parts length element (a :: classes) draft) :
    Ensures External (Repeats w outer first base parts length element classes)
      (draft.putPack w span length a (element.get a).size (element.get a).leaves) := by
  obtain ⟨ready, put, repeating⟩ := h.ready
  unfold putPack
  split
  · rename_i empty
    rw [zoneItems_cons, if_pos empty] at repeating
    exact ⟨h.slots, h.packs, h.room, ready, put, repeating⟩
  · rename_i nonempty
    rw [zoneItems_cons, if_neg nonempty] at repeating
    cases sized : w.checked ((element.get a).size * length) with
    | none => exact rfl
    | some size =>
      obtain ⟨_, rfl⟩ := Width.checked_eq_some.mp sized
      refine ((ensures_put w span _ _).weaken External external_overflow).mono
        fun after ⟨put', same⟩ => ?_
      have next := repeating.step pos h.room
      have sound := repeating.sound_waiting _ List.mem_cons_self
      rw [same]
      refine ⟨h.slots, fun before grown size => ?_, ?_, _, put.append (PutAll.singleton put'), next⟩
      · exact extends_adopted (h.packs before grown size) fun leaf inner id outer =>
          size ▸ sound.fresh leaf inner id outer
      · show first ≤ (adopted draft.packs _ _).size
        rw [size_adopted]
        exact Nat.le_succ_of_le h.room

/-- An array is put in class by class, and realizes the parts of its element repeated. -/
theorem ensures_putArray (draft : Draft) {first base length : Nat} {element : PerClass Zone}
    (pos : 0 < length)
    (realizes : Realizes draft.packs first base parts (zoneItems element Alignment.descending))
    (whole : ∀ a, a.bytes ∣ (element.get a).size) (room : first ≤ draft.packs.size) :
    Ensures External (fun after => Repeats w draft first base parts length element [] after)
      (draft.putArray w span length element) := by
  unfold putArray
  cases counted : footprint? w element with
  | none => exact rfl
  | some counts =>
    obtain ⟨exact_, bytes⟩ := footprint?_spec whole counted
    refine Ensures.foldlM (Repeats w draft first base parts length element)
      (fun a classes now h => ?_) ⟨rfl, fun _ grown _ => grown, room, [], rfl,
        Repeating.start realizes⟩
    rw [exact_.bytes, bytes]
    exact ensures_putPack pos h

/-! ## Reports -/

/-- What is put in besides variants leaves the variants and the warnings alone. -/
abbrev KeepsReports (draft : Draft) (run : Except LayoutError Draft) : Prop :=
  Ensures (fun _ => True)
    (fun after => after.variants = draft.variants ∧ after.warnings = draft.warnings) run

theorem keepsReports_put (item : Item) : draft.KeepsReports (draft.put w span item) := by
  refine (ensures_put w span item draft).anyway.mono fun after h => ?_
  rw [h.2]
  exact ⟨rfl, rfl⟩

theorem keepsReports_putLeaf (align : Alignment) (size : Nat) :
    draft.KeepsReports (draft.putLeaf w span align size) := by
  unfold putLeaf
  split
  · exact keepsReports_put _
  · exact trivial

theorem keepsReports_putZones (zones : PerClass Zone) :
    draft.KeepsReports (draft.putZones w span zones) := by
  refine (ensures_putZones w span zones draft).anyway.mono fun after h => ?_
  rw [h.1]
  exact ⟨rfl, rfl⟩

theorem keepsReports_putArray (length : Nat) (element : PerClass Zone) :
    draft.KeepsReports (draft.putArray w span length element) := by
  unfold putArray
  split
  · exact trivial
  · refine Ensures.foldlM (fun _ (now : Draft) =>
      now.variants = draft.variants ∧ now.warnings = draft.warnings) (fun a _ now same => ?_)
      ⟨rfl, rfl⟩
    unfold putPack
    split
    · exact same
    · split
      · exact trivial
      · exact (keepsReports_put _).mono fun after h => ⟨h.1.trans same.1, h.2.trans same.2⟩

/-! ## What the ways change -/

theorem of_putLeaf {align : Alignment} {size : Nat}
    (put : draft.putLeaf w span align size = .ok after) :
    after = { draft with slots := draft.slots + 1, container := after.container } ∧
      PutAll w [⟨size, align, [⟨draft.slots, align, 0, []⟩]⟩] draft.container after.container := by
  unfold putLeaf at put
  split at put
  · obtain ⟨into, same⟩ := (ensures_put w span _ _).of_ok put
    exact ⟨same, PutAll.singleton into⟩
  · contradiction

/-- A resolution is put in with its report, if its storage is accepted. -/
theorem of_putVariant {options : Options} {tag arms : Nat} {r : Resolution}
    (put : draft.putVariant w options span tag arms r = .ok after) :
    (options.requirePerfect = true → r.degradations = []) ∧
      after = { draft with
        variants := draft.variants.push
          ⟨tag, arms, r.target, r.layout, r.required, r.isPerfect, span⟩
        warnings := draft.warnings ++ r.degradations.map fun d => (⟨d, span⟩ : Warning)
        container := after.container } ∧
      PutAll w (zoneItems (r.storage.zones w) Alignment.descending) draft.container
        after.container := by
  unfold putVariant at put
  split at put
  · contradiction
  · rename_i accepted
    obtain ⟨same, into⟩ := (ensures_putZones w span _ _).of_ok put
    refine ⟨fun strict => ?_, same, into⟩
    cases found : r.degradations with
    | nil => rfl
    | cons reason rest => exact absurd found (accepted reason rest strict)

/-- A copy of a template is put in with its tables. -/
theorem of_embed {t : Template} (put : draft.embed w span t = .ok after) :
    after = {
        slots := draft.slots + t.slots
        packs := draft.packs ++ t.packs.map (Pack.renumber draft.packs.size)
        variants := draft.variants ++ t.variants.map (VariantLayout.renumber draft.slots)
        warnings := draft.warnings ++ t.warnings
        container := after.container } ∧
      PutAll w (zoneItems ((t.renumber draft.slots draft.packs.size).sizedZones w)
        Alignment.descending) draft.container after.container := by
  unfold embed at put
  split at put
  · contradiction
  · exact (ensures_putZones w span _ _).of_ok put

end Draft

/-! ## Copies of structs -/

/-- A template whose zones realize some parts, at the sizes its footprint counts. -/
structure Template.Realizes (w : Width) (t : Template) (parts : List Part) : Prop where
  slots_eq : t.slots = parts.length
  slots_le : t.slots ≤ maxSlots
  zones : PackedLayout.Realizes t.packs 0 0 parts (zoneItems t.zones Alignment.descending)
  counts : t.footprint.Exact w
  bytes : ∀ a, t.footprint.bytes .unbounded a = (t.zones.get a).size
  empty : ∀ a, (t.zones.get a).size = 0 → (t.zones.get a).leaves = []

namespace Template.Realizes

variable {w : Width} {t : Template} {parts : List Part}

theorem get_sizedZones (h : t.Realizes w parts) (slots packs : Nat) (a : Alignment) :
    ((t.renumber slots packs).sizedZones w).get a =
      ⟨(t.zones.get a).size, (t.zones.get a).leaves.map (Leaf.renumber slots packs)⟩ := by
  unfold Template.sizedZones Template.renumber
  rw [PerClass.get_ofFn]
  simp only [PerClass.get_map, h.counts.bytes, h.bytes]

theorem zoneItems_sizedZones (h : t.Realizes w parts) (slots packs : Nat)
    (classes : List Alignment) :
    zoneItems ((t.renumber slots packs).sizedZones w) classes =
      (zoneItems t.zones classes).map (Item.renumber slots packs) := by
  unfold zoneItems
  rw [List.map_map]
  simp only [h.get_sizedZones]
  rfl

end Template.Realizes

/-- A copy of a template realizes its parts. -/
theorem Draft.ensures_embed {w : Width} {span : Span} {t : Template} {parts : List Part}
    {draft : Draft} (h : t.Realizes w parts) :
    Ensures External (fun after => Grows w draft after parts) (draft.embed w span t) := by
  unfold embed
  split
  · exact rfl
  · rename_i room
    refine ((ensures_putZones w span _ _).weaken External external_overflow).mono
      fun after ⟨same, put⟩ => ?_
    rw [h.zoneItems_sizedZones] at put
    have slots_eq : after.slots = draft.slots + t.slots := by rw [same]; rfl
    have packs : after.packs = draft.packs ++ (t.renumber draft.slots draft.packs.size).packs := by
      rw [same]
    refine ⟨?_, ?_, ?_, _, put, ?_⟩
    · rw [slots_eq, h.slots_eq]
    · rw [slots_eq]
      exact Nat.not_lt.mp room
    · rw [packs]
      exact extends_append _ _
    · rw [packs]
      exact h.zones.renumber draft.packs draft.slots

end PackedLayout
