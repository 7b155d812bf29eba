import PackedLayout.Proofs.Needs

/-!
# What takes up space

A type without leaves puts nothing into a draft, though it is gone through. So an element of a
dynamic array has a footprint exactly if its type has a leaf.

- `Quiet`: where no slot was given out, the container is what it was;
- `keeps_layOutType_quiet`, `keeps_freshTemplate_quiet`: so it is for all types, and structs;
- `ends_freshTemplate`: what is known of a struct that is made anew;
- `keeps_elementFootprint_space`: what is known of the footprint of an element.
-/

namespace PackedLayout

variable {schema : Schema} {setting : Setting} {struct : StructLayout} {w : Width} {span : Span}
  {layOut : TypeLayout} {draft after : Draft}

/-- Where no slot was given out, the container is what it was. -/
def Quiet (before after : Draft) : Prop :=
  after.slots = before.slots → after.container = before.container

/-- A run in an engine whose templates are sound, however it fails. -/
abbrev Ends {α : Type} (schema : Schema) (w : Width) (value : α → Prop) (act : EngineM α) : Prop :=
  Keeps (Cache.Sound schema w) (fun _ => True) value act

/-- Putting a type into a draft is quiet. -/
def QuietTypes (schema : Schema) (w : Width) (layOut : TypeLayout) : Prop :=
  ∀ id draft, draft.slots ≤ maxSlots → Ends schema w (Quiet draft) (layOut id draft)

/-- A template without slots has no bytes. -/
def Template.Quiet (w : Width) (t : Template) : Prop :=
  t.slots = 0 → ∀ a, t.footprint.bytes w a = 0

/-- The templates that are found are quiet. -/
abbrev FindsQuiet (setting : Setting) (struct : StructLayout) : Prop :=
  ∀ name span, Ends setting.schema setting.width (Template.Quiet setting.width) (struct name span)

theorem Shape.parts_leaf_ne_nil (size align : Nat) : (leaf size align).parts ≠ [] := by
  rw [parts]
  exact List.cons_ne_nil _ _

theorem Draft.Grows.quiet {parts : List Part} (grown : Draft.Grows w draft after parts)
    (leaf : parts ≠ []) : Quiet draft after := by
  intro same
  have more := grown.slots_eq
  have pos := List.length_pos_iff.mpr leaf
  omega

theorem footprint?_emptyBody (w : Width) :
    footprint? w Container.emptyBody.zones = some .empty := by
  cases w <;> decide

theorem UnitCounts.bytes_empty (w : Width) (a : Alignment) : empty.bytes w a = 0 := by
  cases w <;> cases a <;> decide

theorem UnitCounts.largest?_eq_none {counts : UnitCounts} :
    counts.largest? = none ↔ ∀ a, counts.bytes .unbounded a = 0 := by
  unfold largest?
  rw [List.find?_eq_none]
  constructor
  · intro none a
    have zero := none a a.mem_descending
    rw [decide_eq_true_eq, Nat.pos_iff_ne_zero, not_not] at zero
    rw [bytes_unbounded, zero, Nat.zero_mul]
  · intro zero a _
    have le := get_le_bytes counts a
    rw [zero a] at le
    simpa using le

/-! ## Drafts -/

theorem Draft.putZones_of_zero {zones : PerClass Zone} (zero : ∀ a, (zones.get a).size = 0) :
    draft.putZones w span zones = .ok draft := by
  unfold putZones
  simp only [zero, if_true]
  rfl

/-- An array of elements without bytes is not put in. -/
theorem Draft.putArray_of_emptyBody (length : Nat) :
    draft.putArray w span length Container.emptyBody.zones = .ok draft := by
  unfold putArray
  rw [footprint?_emptyBody]
  simp only [UnitCounts.bytes_empty, putPack, if_true]
  rfl

theorem Draft.slots_putArray {length : Nat} {element : PerClass Zone}
    (run : draft.putArray w span length element = .ok after) : after.slots = draft.slots := by
  unfold putArray at run
  cases counted : footprint? w element with
  | none =>
    rw [counted] at run
    contradiction
  | some footprint =>
    rw [counted] at run
    have kept (a : Alignment) (rest : List Alignment) (now : Draft)
        (same : now.slots = draft.slots) : Ensures (fun _ => True) (fun next : Draft =>
          next.slots = draft.slots)
          (now.putPack w span length a (footprint.bytes w a) (element.get a).leaves) := ?_
    · exact (Ensures.foldlM (fun _ (now : Draft) => now.slots = draft.slots) kept rfl).of_ok run
    unfold putPack
    split
    · exact same
    · split
      · exact trivial
      · refine (ensures_put w span _ _).anyway.mono fun next h => ?_
        rw [h.2]
        exact same

/-! ## Types -/

theorem keeps_layOutFields_quiet (lays : Lays schema w layOut) (quiet : QuietTypes schema w layOut)
    (fields : List Field) (room : draft.slots ≤ maxSlots) :
    Ends schema w (Quiet draft) (layOutFields layOut fields draft) := by
  unfold layOutFields
  refine (Keeps.foldlM (fun _ (now : Draft) => draft.slots ≤ now.slots ∧ now.slots ≤ maxSlots ∧
    Quiet draft now) (fun field _ now ⟨more, room, sofar⟩ => ?_)
      ⟨Nat.le_refl _, room, fun _ => rfl⟩).mono fun _ h => h.2.2
  refine ((quiet field.type now room).ensuring (lays field.type now room) fun _ good => good).mono
    fun next ⟨still, _, _, grown⟩ => ?_
  have further := grown.slots_eq
  refine ⟨by omega, grown.slots_le, fun same => ?_⟩
  rw [still (by omega), sofar (by omega)]

theorem keeps_layOutArray_quiet (quiet : QuietTypes schema w layOut) (element : TypeId)
    (length : Nat) (room : draft.slots ≤ maxSlots) :
    Ends schema w (Quiet draft) (layOutArray w span layOut element length draft) := by
  unfold layOutArray
  dsimp only [Draft.exchange]
  refine (quiet element { draft with container := .emptyBody } room).bind fun inner still => ?_
  apply Keeps.lift
  cases run : Draft.putArray w span length inner.container.zones
    { inner with container := draft.container } with
  | error e => exact trivial
  | ok after =>
    intro same
    rw [Draft.slots_putArray run] at same
    rw [still same] at run
    obtain rfl := Except.ok.inj ((Draft.putArray_of_emptyBody length).symm.trans run)
    rfl

/-- Copying a template without slots changes nothing but the tables. -/
theorem Draft.ensures_embed_quiet {t : Template} (still : t.Quiet w) :
    Ensures (fun _ => True) (Quiet draft) (draft.embed w span t) := by
  unfold embed
  split
  · exact trivial
  · by_cases none : t.slots = 0
    · have zero (a : Alignment) :
          (((t.renumber draft.slots draft.packs.size).sizedZones w).get a).size = 0 := by
        rw [Template.sizedZones, PerClass.get_ofFn]
        exact still none a
      dsimp only
      rw [putZones_of_zero zero]
      exact fun _ => rfl
    · refine (ensures_putZones w span _ _).anyway.mono ?_
      rintro after ⟨put, _⟩ same
      rw [put] at same
      have slots : draft.slots + t.slots = draft.slots := same
      omega

theorem keeps_layOutNamed_quiet {name : String} (found : FindsQuiet setting struct) :
    Ends setting.schema setting.width (Quiet draft)
      (layOutNamed setting span struct name draft) := by
  obtain ⟨run, step⟩ := setting.schema.exists_nameStep name
  rw [step.layOutNamed_eq rfl]
  cases step with
  | unknown | badEnum => exact Keeps.throw trivial
  | enum =>
    exact Keeps.lift ((ensures_putPrimitive _).anyway.mono fun _ grown =>
      grown.quiet (Shape.parts_leaf_ne_nil _ _))
  | struct =>
    refine (found name span).bind fun t still => ?_
    split
    · exact Keeps.lift (Draft.ensures_embed_quiet still)
    · exact Keeps.throw trivial

/-- Laying out a type is quiet. -/
theorem keeps_layOutType_quiet (finds : Finds setting.schema setting.width struct)
    (found : FindsQuiet setting struct) (depth : Nat) :
    QuietTypes setting.schema setting.width (layOutType setting struct depth) := by
  induction depth with
  | zero => exact fun id draft _ => Keeps.throw trivial
  | succ depth ih =>
    intro id draft room
    have lays := keeps_layOutType finds depth
    obtain ⟨run, step⟩ := setting.schema.exists_typeStep id
    rw [layOutType_succ, step.layOutForm_eq rfl]
    cases step with
    | refused => exact Keeps.throw trivial
    | primitive =>
      exact Keeps.lift ((ensures_putPrimitive _).anyway.mono fun _ grown =>
        grown.quiet (Shape.parts_leaf_ne_nil _ _))
    | @string length span _ pos =>
      have whole : Alignment.one.bytes ∣ length := Nat.one_dvd length
      exact Keeps.lift ((Draft.ensures_putLeaf setting.width span draft pos whole).anyway.mono
        fun _ grown => grown.quiet (List.cons_ne_nil _ _))
    | array => exact keeps_layOutArray_quiet ih _ _ room
    | variant =>
      refine (keeps_layOutVariant lays _).anyway.mono ?_
      rintro _ ⟨shapes, _, grown⟩
      apply grown.quiet
      rw [Shape.parts]
      exact List.cons_ne_nil _ _
    | record => exact keeps_layOutFields_quiet lays ih _ room
    | named => exact keeps_layOutNamed_quiet found

/-! ## Structs -/

theorem keeps_layOutField_quiet (finds : Finds setting.schema setting.width struct)
    (found : FindsQuiet setting struct) (sofar : Draft × List TrailingField) (field : Field)
    (room : sofar.1.slots ≤ maxSlots) :
    Ends setting.schema setting.width (fun after => sofar.1.slots ≤ after.1.slots ∧
        after.1.slots ≤ maxSlots ∧ Quiet sofar.1 after.1)
      (layOutField setting struct sofar field) := by
  obtain ⟨run, step⟩ := setting.schema.exists_fieldStep field
  rw [step.layOutField_eq rfl]
  cases step with
  | string => exact Keeps.pure ⟨Nat.le_refl _, room, fun _ => rfl⟩
  | dynamic =>
    refine (keeps_elementFootprint finds _).anyway.bind fun ⟨footprint, warnings⟩ _ => ?_
    dsimp only
    split
    · exact Keeps.throw trivial
    · exact Keeps.pure ⟨Nat.le_refl _, room, fun _ => rfl⟩
  | fixed =>
    refine ((keeps_layOutType_quiet finds found _ field.type sofar.1 room).ensuring
      (keeps_layOutNode finds field.type sofar.1 room) fun _ good => good).bind
        fun after ⟨still, _, _, grown⟩ => Keeps.pure ⟨?_, grown.slots_le, still⟩
    exact grown.slots_eq ▸ Nat.le_add_right _ _

theorem keeps_layOutStruct_quiet (finds : Finds setting.schema setting.width struct)
    (found : FindsQuiet setting struct) (name : String) (fields : List Field) (span : Span) :
    Ends setting.schema setting.width (Template.Quiet setting.width)
      (layOutStruct setting struct name fields span) := by
  unfold layOutStruct
  refine (Keeps.foldlM (fun _ (sofar : Draft × List TrailingField) =>
    sofar.1.slots ≤ maxSlots ∧ Quiet .empty sofar.1) (fun field _ sofar ⟨room, before⟩ => ?_)
      ⟨Nat.zero_le _, fun _ => rfl⟩).bind fun ⟨draft, trailing⟩ ⟨_, still⟩ => ?_
  · refine (keeps_layOutField_quiet finds found sofar field room).mono
      fun after ⟨more, room, still⟩ => ⟨room, fun none => ?_⟩
    have none : after.1.slots = 0 := none
    have empty : sofar.1.slots = 0 := by omega
    rw [still (none.trans empty.symm), before empty]
  · dsimp only
    split
    · exact Keeps.throw trivial
    · rename_i footprint counted
      refine Keeps.pure fun none a => ?_
      have same : draft.container = .emptyBody := still none
      rw [same, footprint?_emptyBody] at counted
      cases counted
      exact UnitCounts.bytes_empty _ a

/-- What holds of a struct whenever it is laid out, if it holds of the structs that are found,
holds of every struct that is made anew. -/
theorem ends_freshTemplate {value : String → Template → Prop}
    (step : ∀ depth, (∀ name span, Ends setting.schema setting.width (value name)
        (freshTemplate setting depth name span)) →
      ∀ name fields span, setting.schema.structFields? name = some fields →
        Ends setting.schema setting.width (value name)
          (layOutStruct setting (freshTemplate setting depth) name fields span))
    (depth : Nat) (name : String) (span : Span) :
    Ends setting.schema setting.width (value name) (freshTemplate setting depth name span) := by
  have body (name : String) (span : Span) := (@keeps_structBody setting
    (Cache.Sound setting.schema setting.width) name span).anyway
  induction depth generalizing name span with
  | zero =>
    unfold freshTemplate
    exact (body name span).bind fun _ _ => Keeps.throw trivial
  | succ depth ih =>
    unfold freshTemplate
    apply (body name span).bind
    rintro ⟨fields, declared⟩ known
    exact (step depth ih name fields declared known).whileUnderway name (fun _ good => good)
      (fun _ good => good)

/-- The template that is made anew for a struct has no bytes unless it has slots. -/
theorem keeps_freshTemplate_quiet (setting : Setting) (depth : Nat) :
    FindsQuiet setting (freshTemplate setting depth) :=
  @ends_freshTemplate setting (fun _ => Template.Quiet setting.width)
    (fun depth ih name fields span _ =>
      keeps_layOutStruct_quiet (finds_freshTemplate setting depth) ih name fields span) depth

/-! ## Elements -/

/-- The element of a dynamic array has a footprint if and only if its type has a leaf. -/
theorem keeps_elementFootprint_space (finds : Finds setting.schema setting.width struct)
    (found : FindsQuiet setting struct) (element : TypeId) :
    Ends setting.schema setting.width (fun r => ∃ shape, HasShape setting.schema element shape ∧
        shape.parts.length ≤ maxSlots ∧ (r.1.largest? = none ↔ shape.parts = []))
      (elementFootprint setting struct element) := by
  unfold elementFootprint
  refine ((keeps_layOutType_quiet finds found _ element .empty (Nat.zero_le _)).ensuring
    (keeps_layOutNode finds element .empty (Nat.zero_le _)) fun _ good => good).bind
      fun draft ⟨still, shape, hasShape, grown⟩ => ?_
  have slots : draft.slots = shape.parts.length := by
    rw [grown.slots_eq]
    exact Nat.zero_add _
  split
  · rename_i footprint counted
    refine Keeps.pure ⟨shape, hasShape, slots ▸ grown.slots_le, ?_⟩
    obtain ⟨items, put, realizes⟩ := grown.items
    obtain ⟨zones, whole⟩ := realizes.body put
    obtain ⟨_, bytes⟩ := footprint?_spec (fun a => (whole a).1) counted
    rw [UnitCounts.largest?_eq_none]
    constructor
    · intro zero
      -- a leaf would lie in a zone that has a size
      have none : zoneItems draft.container.zones Alignment.descending = [] := by
        unfold zoneItems
        rw [List.map_eq_nil_iff, List.filter_eq_nil_iff]
        intro a _
        simp [← bytes a, zero a]
      have perm := zones.slots
      rw [none, List.flatMap_nil, List.map_nil] at perm
      have length := perm.length_eq
      rw [List.length_range'] at length
      exact List.length_eq_zero_iff.mp length.symm
    · intro leafless a
      rw [leafless] at slots
      have same : draft.container = .emptyBody := still slots
      rw [same, footprint?_emptyBody] at counted
      cases counted
      exact UnitCounts.bytes_empty _ a
  · exact Keeps.throw trivial

end PackedLayout
