import PackedLayout.Proofs.Completeness
import PackedLayout.Proofs.Walk

/-!
# Variants of simple types

A simple type is a primitive, an enum stored as an integer, a string of one byte, or a record of
simple types. Its fields take one unit of their class each, so a variant of simple types never has
waste as long as its largest arm is within the limit of the search:

- `keeps_layOutSimple`, `keeps_collectSimple`: what simple types put into a draft;
- `simple_variant_without_waste`: such a variant is perfect, whatever the options accept.
-/

namespace PackedLayout

/-- Types made of primitives, enums stored as integers, strings of one byte, and records of these,
each with its size in bytes. -/
inductive Simple (schema : Schema) : TypeId → Nat → Prop
  | primitive {id : TypeId} {p : Primitive} {span : Span}
    (node : schema.type? id = some ⟨.primitive p, span⟩) : Simple schema id p.size
  | string {id : TypeId} {span : Span} (node : schema.type? id = some ⟨.fixedString 1, span⟩) :
    Simple schema id 1
  | enum {id : TypeId} {name key : String} {span declared : Span} {repr : Primitive}
    {variants : List Enumerator} (node : schema.type? id = some ⟨.named name, span⟩)
    (declaration : schema.declaration? name = some ⟨key, .enum repr variants, declared⟩)
    (integer : repr.isInteger = true) : Simple schema id repr.size
  | record {id : TypeId} {fields : List Field} {span : Span} {size : Field → Nat}
    (node : schema.type? id = some ⟨.record fields, span⟩)
    (inner : ∀ field ∈ fields, Simple schema field.type (size field)) :
    Simple schema id (exactSum (fields.map size))

/-- The slots or the bytes of a layout are used up. -/
def OutOfRoom (e : LayoutError) : Prop :=
  e.cause = .tooManyFields maxSlots ∨ e.cause = .sizeOverflow

theorem outOfRoom_overflow {span : Span} (e : LayoutError) (h : e = .overflow span) :
    OutOfRoom e := by
  rw [h]
  exact .inr rfl

/-- Items of one unit each are put into a draft, `n` bytes in all, and no variant and no warning. -/
structure Draft.PutsUnits (w : Width) (before after : Draft) (n : Nat) : Prop where
  items : ∃ items, PutAll w items before.container after.container ∧
    (∀ item ∈ items, item.Unit) ∧ exactSize items = n
  variants : after.variants = before.variants
  warnings : after.warnings = before.warnings

namespace Draft.PutsUnits

variable {w : Width} {before mid after : Draft} {n m : Nat}

theorem nil (w : Width) (draft : Draft) : PutsUnits w draft draft 0 := by
  refine ⟨⟨[], rfl, ?_, rfl⟩, rfl, rfl⟩
  simp

theorem trans (first : PutsUnits w before mid n) (second : PutsUnits w mid after m) :
    PutsUnits w before after (n + m) := by
  obtain ⟨items, put, units, size⟩ := first.items
  obtain ⟨others, put', units', size'⟩ := second.items
  refine ⟨⟨items ++ others, put.append put', ?_, ?_⟩, second.variants.trans first.variants,
    second.warnings.trans first.warnings⟩
  · intro item listed
    obtain earlier | later := List.mem_append.mp listed
    · exact units item earlier
    · exact units' item later
  · rw [exactSize_append, size, size']

end Draft.PutsUnits

variable {setting : Setting} {struct : StructLayout} {w : Width} {span : Span}

/-- A leaf of one unit is put in, or the slots or the bytes are used up. -/
theorem ensures_putUnit (draft : Draft) {a : Alignment} {size : Nat} (unit : size = a.bytes) :
    Ensures OutOfRoom (fun after => draft.PutsUnits w after size)
      (draft.putLeaf w span a size) := by
  unfold Draft.putLeaf
  split
  · refine ((Draft.ensures_put w span _ _).weaken OutOfRoom outOfRoom_overflow).mono
      fun after ⟨put, same⟩ => ?_
    rw [same]
    refine ⟨⟨_, PutAll.singleton put, ?_, rfl⟩, rfl, rfl⟩
    simp [Item.Unit, unit]
  · exact .inl rfl

/-- A simple type puts its size into a draft, in items of one unit each. -/
theorem keeps_layOutSimple {id : TypeId} {n : Nat} (simple : Simple setting.schema id n)
    (depth : Nat) (draft : Draft) :
    Keeps (fun _ => True) OutOfRoom (fun after => draft.PutsUnits setting.width after n)
      (layOutType setting struct depth id draft) := by
  induction simple generalizing depth draft with
  | @primitive id p span node =>
    cases depth with
    | zero => exact Keeps.throw (.inr rfl)
    | succ depth =>
      rw [layOutType_succ, (Schema.TypeStep.primitive node).layOutForm_eq rfl]
      exact Keeps.lift (ensures_putUnit draft p.bytes_ofSize_size.symm)
  | string node =>
    cases depth with
    | zero => exact Keeps.throw (.inr rfl)
    | succ depth =>
      rw [layOutType_succ, (Schema.TypeStep.string node Nat.one_pos).layOutForm_eq rfl]
      exact Keeps.lift (ensures_putUnit draft rfl)
  | @enum id name key span declared repr variants node declaration integer =>
    cases depth with
    | zero => exact Keeps.throw (.inr rfl)
    | succ depth =>
      rw [layOutType_succ, (Schema.TypeStep.named node).layOutForm_eq rfl]
      rw [(Schema.NameStep.enum declaration integer).layOutNamed_eq rfl]
      exact Keeps.lift (ensures_putUnit draft repr.bytes_ofSize_size.symm)
  | @record id fields span size node inner ih =>
    cases depth with
    | zero => exact Keeps.throw (.inr rfl)
    | succ depth =>
      rw [layOutType_succ, (Schema.TypeStep.record node).layOutForm_eq rfl]
      dsimp only [layOutFields]
      -- the fields that are done have put in their sizes
      refine (Keeps.foldlM (fun rest (now : Draft) => ∃ done, done ++ rest = fields ∧
        draft.PutsUnits setting.width now (exactSum (done.map size))) ?_
        ⟨[], rfl, Draft.PutsUnits.nil _ _⟩).mono ?_
      · rintro field rest now ⟨done, rfl, puts⟩
        refine (ih field (by simp) depth now).mono fun after further => ?_
        refine ⟨done ++ [field], by simp, ?_⟩
        rw [List.map_append, exactSum_append]
        exact puts.trans further
      · rintro after ⟨done, rfl, puts⟩
        rwa [List.append_nil]

/-! ## Arms -/

/-- The arms that are collected from simple types, with the sizes of the types. -/
structure CollectsUnits (w : Width) (before : Draft) (sizes : List Nat) (arms : List Arm)
    (now : Draft) : Prop where
  container : now.container = .arm []
  collected : ∀ arm ∈ arms, arm.Collected w
  units : Units arms
  required : arms.map (·.required) = sizes
  variants : now.variants = before.variants
  warnings : now.warnings = before.warnings

/-- One more arm is collected. -/
theorem CollectsUnits.step {before now next : Draft} {sizes : List Nat} {arms : List Arm}
    {arm : Arm} {index n : Nat} (h : CollectsUnits w before sizes arms now)
    (puts : now.PutsUnits w next n) (made : Arm.of? w index next.container.items = some arm) :
    CollectsUnits w before (sizes ++ [n]) (arms ++ [arm])
      { next with container := .arm [] } := by
  obtain ⟨items, put, units, size⟩ := puts.items
  rw [h.container] at put
  have content : next.container.items = items := by
    simp [putAll_arm put, Container.items]
  rw [content] at made
  obtain ⟨collected, _, pending⟩ := Arm.collected_of? (fun item listed => (units item listed).whole)
    made
  refine ⟨rfl, ?_, ?_, ?_, puts.variants.trans h.variants, puts.warnings.trans h.warnings⟩
  · intro other listed
    obtain earlier | new := List.mem_append.mp listed
    · exact h.collected other earlier
    · rw [List.mem_singleton.mp new]
      exact collected
  · intro other listed
    obtain earlier | new := List.mem_append.mp listed
    · exact h.units other earlier
    · rw [List.mem_singleton.mp new, pending]
      exact units
  · simp [h.required, collected.required_eq, pending, size]

theorem keeps_collectSimple {depth : Nat} {before draft : Draft} {size : TypeId → Nat}
    (ids : List TypeId) (simple : ∀ id ∈ ids, Simple setting.schema id (size id)) {index : Nat}
    {sizes : List Nat} {collected : List Arm}
    (h : CollectsUnits setting.width before sizes collected.reverse draft) :
    Keeps (fun _ => True) OutOfRoom
      (fun r => CollectsUnits setting.width before (sizes ++ ids.map size) r.1 r.2)
      (collectArms setting.width span (layOutType setting struct depth) index collected ids
        draft) := by
  induction ids generalizing index sizes collected draft with
  | nil =>
    apply Keeps.pure
    simpa using h
  | cons id rest ih =>
    unfold collectArms
    refine (keeps_layOutSimple (simple id List.mem_cons_self) depth draft).bind fun next puts => ?_
    dsimp only [Draft.exchange]
    split
    · rename_i arm made
      have step := h.step puts made
      rw [← List.reverse_cons] at step
      have others : ∀ other ∈ rest, Simple setting.schema other (size other) :=
        fun other listed => simple other (List.mem_cons_of_mem _ listed)
      simpa using ih others step
    · exact Keeps.throw (.inr rfl)

theorem collectsUnits_nil {draft : Draft} (empty : draft.container = .arm []) :
    CollectsUnits w draft [] (List.reverse []) draft := by
  constructor <;> simp [empty, Units]

/-- The storage of simple arms has no waste. -/
theorem CollectsUnits.resolution {limit : Nat} {before now : Draft} {sizes : List Nat}
    {arms : List Arm} (h : CollectsUnits w before sizes arms now) (small : ∀ n ∈ sizes, n ≤ limit) :
    ∃ r, Resolution.ofArms w limit arms = .ok r ∧ r.plan.skipped = false ∧
      r.plan.degraded = [] ∧ r.degradations = [] ∧ r.isPerfect = true ∧ r.layout = r.target ∧
      r.layout.total = r.required ∧ r.required = sizes.foldl max 0 := by
  obtain ⟨r, resolved, searched, undegraded, none, perfect, same, total, required⟩ :=
    resolution_of_units h.collected h.units fun arm member => by
      apply small
      rw [← h.required]
      exact List.mem_map_of_mem member
  rw [largestSize_byRequirement, h.required] at required
  exact ⟨r, resolved, searched, undegraded, none, perfect, same, total, required⟩

/-! ## The variant -/

/-- A perfect storage is put in under any options, with a perfect record and no warning. -/
theorem ensures_putPerfect {options : Options} {tag arms : Nat} {r : Resolution} (draft : Draft)
    (none : r.degradations = []) :
    Ensures OutOfRoom (fun after => after.warnings = draft.warnings ∧
        after.variants = draft.variants.push
          ⟨tag, arms, r.target, r.layout, r.required, r.isPerfect, span⟩)
      (draft.putVariant w options span tag arms r) := by
  unfold Draft.putVariant
  rw [none]
  split
  · contradiction
  · refine ((Draft.ensures_putZones w span _ _).weaken OutOfRoom outOfRoom_overflow).mono
      fun after ⟨same, _⟩ => ?_
    rw [same]
    simp

/-- A simple variant is put in without a warning, in storage that is as large as its largest arm. -/
theorem keeps_layOutVariant_simple (setting : Setting) (struct : StructLayout) (depth : Nat)
    (span : Span) {ids : List TypeId} {size : TypeId → Nat}
    (simple : ∀ arm ∈ ids, Simple setting.schema arm (size arm))
    (within : ∀ n ∈ ids.map size, n ≤ setting.options.maxSearchBytes) (draft : Draft) :
    Keeps (fun _ => True) OutOfRoom
      (fun after => after.warnings = draft.warnings ∧ ∃ record,
        after.variants = draft.variants.push record ∧ record.arms = ids.length ∧
          record.perfect = true ∧ record.layout = record.target ∧
          record.layout.total = record.required ∧
          record.required = (ids.map size).foldl max 0)
      (layOutVariant setting.width setting.options span (layOutType setting struct depth) ids
        draft) := by
  unfold layOutVariant
  have unit : (Alignment.ofSize (tagSize ids.length)).bytes = tagSize ids.length := by
    unfold tagSize
    split <;> decide
  refine (Keeps.lift (ensures_putUnit draft unit.symm)).bind fun tagged tag => ?_
  dsimp only [Draft.exchange]
  refine (keeps_collectSimple ids simple (collectsUnits_nil rfl)).bind
    fun ⟨arms, filled⟩ collects => ?_
  rw [List.nil_append] at collects
  obtain ⟨r, resolved, _, _, none, perfect, same, total, required⟩ := collects.resolution within
  dsimp only
  rw [resolved]
  refine (Keeps.lift (ensures_putPerfect _ none)).mono fun after ⟨warnings, variants⟩ => ?_
  refine ⟨(warnings.trans collects.warnings).trans tag.warnings,
    ⟨draft.slots, ids.length, r.target, r.layout, r.required, r.isPerfect, span⟩, ?_, rfl,
    perfect, same, total, required⟩
  rw [variants]
  exact congrArg (Array.push · _) (collects.variants.trans tag.variants)

/-- A variant of simple types whose largest arm is within the limit of the search is laid out
without a warning and with a perfect record, as large as its largest arm, and accepted where only
perfect variants are: it is only refused when the slots, the bytes or the depth is used up. No
class of its storage is degraded. -/
theorem simple_variant_without_waste (setting : Setting) (struct : StructLayout) (depth : Nat)
    {id : TypeId} {ids : List TypeId} {span : Span} {size : TypeId → Nat}
    (node : setting.schema.type? id = some ⟨.variant ids .fixed, span⟩) (few : 2 ≤ ids.length)
    (many : ids.length ≤ 65535) (simple : ∀ arm ∈ ids, Simple setting.schema arm (size arm))
    (small : ∀ arm ∈ ids, size arm ≤ setting.options.maxSearchBytes) (draft : Draft)
    (cache : Cache) :
    Ensures OutOfRoom
        (fun after => after.warnings = draft.warnings ∧ ∃ record,
          after.variants = draft.variants.push record ∧ record.arms = ids.length ∧
            record.perfect = true ∧ record.layout = record.target ∧
            record.layout.total = record.required ∧
            record.required = (ids.map size).foldl max 0)
        (layOutType setting struct (depth + 1) id draft cache).1 ∧
      ∀ start arms after, start.container = .arm [] →
        (collectArms setting.width span (layOutType setting struct depth) 0 [] ids start cache).1 =
          .ok (arms, after) →
        ∃ r, Resolution.ofArms setting.width setting.options.maxSearchBytes arms = .ok r ∧
          r.plan.skipped = false ∧ r.plan.degraded = [] ∧ r.degradations = [] ∧
          r.isPerfect = true ∧ r.layout.total = r.required ∧
          r.required = (ids.map size).foldl max 0 := by
  have within : ∀ n ∈ ids.map size, n ≤ setting.options.maxSearchBytes := by
    intro n listed
    obtain ⟨arm, member, rfl⟩ := List.mem_map.mp listed
    exact small arm member
  constructor
  · have accepted : checkVariant ids.length .fixed span = .ok () := by
      simp [checkVariant, Nat.not_lt.mpr few, Nat.not_lt.mpr many]
    simp only [layOutType, node, accepted]
    exact (keeps_layOutVariant_simple setting struct depth span simple within draft cache
      trivial).2
  · intro start arms after empty walked
    have collects := (keeps_collectSimple ids simple (collectsUnits_nil empty) cache
      trivial).2.of_ok walked
    rw [List.nil_append] at collects
    obtain ⟨r, resolved, searched, undegraded, none, perfect, _, total, required⟩ :=
      collects.resolution within
    exact ⟨r, resolved, searched, undegraded, none, perfect, total, required⟩

/-- A schema with an enum, and a variant of two records and the enum that has to be perfect. -/
def gauges : Setting where
  schema.types := ⟨#[⟨.primitive .uint16, .dummy⟩, ⟨.fixedString 1, .dummy⟩,
    ⟨.named "Kind", .dummy⟩, ⟨.record [⟨"a", ⟨1⟩, .dummy⟩, ⟨"b", ⟨0⟩, .dummy⟩], .dummy⟩,
    ⟨.record [⟨"a", ⟨2⟩, .dummy⟩, ⟨"b", ⟨3⟩, .dummy⟩], .dummy⟩,
    ⟨.variant [⟨4⟩, ⟨3⟩, ⟨2⟩] .fixed, .dummy⟩]⟩
  schema.declarations := [⟨"Kind", .enum .uint16 [⟨"idle", 0⟩], .dummy⟩]
  options.requirePerfect := true

/-- The sizes of its types. -/
def gaugeSize (id : TypeId) : Nat := [2, 1, 2, 3, 5].getD id.raw 0

/-- The two records and the enum. -/
def gaugeArms : List Arm :=
  [⟨0, ⟨⟨0, 0, 2, 1⟩⟩, 5,
      [some ⟨2, .two, [⟨1, .two, 0, []⟩]⟩, some ⟨1, .one, [⟨2, .one, 0, []⟩]⟩,
      some ⟨2, .two, [⟨3, .two, 0, []⟩]⟩]⟩,
    ⟨1, ⟨⟨0, 0, 1, 1⟩⟩, 3,
      [some ⟨1, .one, [⟨4, .one, 0, []⟩]⟩, some ⟨2, .two, [⟨5, .two, 0, []⟩]⟩]⟩,
    ⟨2, ⟨⟨0, 0, 1, 0⟩⟩, 2, [some ⟨2, .two, [⟨6, .two, 0, []⟩]⟩]⟩]

theorem simple_variant_without_waste_gauges :
    (∃ after record,
      (layOutType gauges (template gauges 1) 4 ⟨5⟩ .empty .empty).1 = .ok after ∧
        after.warnings = #[] ∧ after.variants = #[record] ∧ record.perfect = true ∧
        record.layout.total = 5) ∧
      ∃ arms after r,
        (collectArms .bits64 .dummy (layOutType gauges (template gauges 1) 3) 0 []
          [⟨4⟩, ⟨3⟩, ⟨2⟩] { Draft.empty with container := .arm [] } .empty).1 =
            .ok (arms, after) ∧
        Resolution.ofArms .bits64 gauges.options.maxSearchBytes arms = .ok r ∧
        r.plan.degraded = [] ∧ r.layout.total = 5 := by
  have half : Simple gauges.schema ⟨0⟩ 2 := @Simple.primitive _ _ .uint16 _ rfl
  have string : Simple gauges.schema ⟨1⟩ 1 := .string rfl
  have kind : Simple gauges.schema ⟨2⟩ 2 := by
    have repr := @Simple.enum gauges.schema ⟨2⟩ _ _ _ _ _ _ rfl rfl rfl
    exact repr
  have inner : Simple gauges.schema ⟨3⟩ 3 := by
    have record := @Simple.record gauges.schema ⟨3⟩ _ _ (fun f => gaugeSize f.type) rfl
    apply record
    simp [gaugeSize, string, half]
  have outer : Simple gauges.schema ⟨4⟩ 5 := by
    have record := @Simple.record gauges.schema ⟨4⟩ _ _ (fun f => gaugeSize f.type) rfl
    apply record
    simp [gaugeSize, kind, inner]
  have arms : ∀ id ∈ [⟨4⟩, ⟨3⟩, ⟨2⟩], Simple gauges.schema id (gaugeSize id) := by
    simp [gaugeSize, outer, inner, kind]
  have node : gauges.schema.type? ⟨5⟩ = some ⟨.variant [⟨4⟩, ⟨3⟩, ⟨2⟩] .fixed, .dummy⟩ := rfl
  have small : ∀ id ∈ [⟨4⟩, ⟨3⟩, ⟨2⟩], gaugeSize id ≤ gauges.options.maxSearchBytes := by decide
  obtain ⟨laid, resolved⟩ := simple_variant_without_waste gauges (template gauges 1) 3 node
    (by decide) (by decide) arms small .empty .empty
  constructor
  · have order : byRequirement gaugeArms = gaugeArms :=
      byRequirement_eq (.refl _) (by decide) (by decide)
    obtain ⟨after, run⟩ : ∃ after,
        (layOutType gauges (template gauges 1) 4 ⟨5⟩ .empty .empty).1 = .ok after := by
      rw [layOutType_succ,
        (Schema.TypeStep.variant node (by decide) (by decide)).layOutForm_eq rfl]
      exact ⟨_, layOutVariant_eq_ok_iff.mpr ⟨_, _, gaugeArms, _, rfl, rfl,
        by rw [Resolution.ofArms, order]; rfl, by rfl⟩⟩
    obtain ⟨warnings, record, variants, _, perfect, _, total, required⟩ := laid.of_ok run
    exact ⟨after, record, run, warnings, variants, perfect, total.trans required⟩
  · obtain ⟨arms, after, walked⟩ : ∃ arms after,
        (collectArms .bits64 .dummy (layOutType gauges (template gauges 1) 3) 0 []
          [⟨4⟩, ⟨3⟩, ⟨2⟩] { Draft.empty with container := .arm [] } .empty).1 =
            .ok (arms, after) := ⟨_, _, rfl⟩
    obtain ⟨r, run, _, undegraded, _, _, total, required⟩ := resolved _ _ _ rfl walked
    exact ⟨arms, after, r, walked, run, undegraded, total.trans required⟩

end PackedLayout
