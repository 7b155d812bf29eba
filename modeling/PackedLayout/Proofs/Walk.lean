import PackedLayout.Proofs.Drafting
import PackedLayout.Proofs.LayoutSteps
import PackedLayout.Proofs.Searching

/-!
# Going through types

Laying out a type puts the parts of its shape into the draft, and meets no fault:

- `Lays`: what `layOutType` does, for any draft it is given;
- `keeps_layOutFields`, `keeps_layOutArray`, `keeps_layOutVariant`, `keeps_layOutNamed`: one
  lemma for each form of a type, from what is known of the types inside;
- `keeps_layOutType`: by induction on the depth.
-/

namespace PackedLayout

/-- A template of the struct it is named after. -/
structure Template.Sound (schema : Schema) (w : Width) (t : Template) : Prop where
  shape : ∃ shape, schema.RootShape t.name shape ∧ t.Realizes w shape.parts
  trailing : ∀ fields, schema.structFields? t.name = some fields →
    t.trailing.map (·.name) = (fields.filter schema.isTrailing).map (·.name)

/-- Every template in the cache is sound. -/
def Cache.Sound (schema : Schema) (w : Width) (cache : Cache) : Prop :=
  ∀ t ∈ cache.templates, t.Sound schema w

/-- A run in an engine that meets no fault and leaves the cache sound. -/
abbrev Runs {α : Type} (schema : Schema) (w : Width) (value : α → Prop) (act : EngineM α) : Prop :=
  Keeps (Cache.Sound schema w) External value act

/-- What is put into a draft has the shape of the type. -/
def Lays (schema : Schema) (w : Width) (layOut : TypeLayout) : Prop :=
  ∀ id draft, draft.slots ≤ maxSlots → Runs schema w (fun after => ∃ shape,
    HasShape schema id shape ∧ Draft.Grows w draft after shape.parts) (layOut id draft)

/-- What is found for a name is a sound template of it. -/
def Finds (schema : Schema) (w : Width) (struct : StructLayout) : Prop :=
  ∀ name span, Runs schema w (fun t => t.Sound schema w ∧ t.name = name) (struct name span)

variable {schema : Schema} {w : Width} {span : Span} {layOut : TypeLayout} {draft : Draft}

/-! ## Records -/

/-- One more shape after others, under a step of its own. -/
theorem Draft.Grows.branch {before mid after : Draft} {step : Nat → Step} {shapes : List Shape}
    {shape : Shape} (first : Grows w before mid (Shape.branches step 0 shapes))
    (second : Grows w mid after shape.parts)
    (plain : ∀ length, step shapes.length ≠ .element length) :
    Grows w before after (Shape.branches step 0 (shapes ++ [shape])) := by
  rw [Shape.branches_concat]
  exact first.trans (second.under _ plain)

theorem keeps_layOutFields (lays : Lays schema w layOut) (fields : List Field)
    (room : draft.slots ≤ maxSlots) :
    Runs schema w (fun after => ∃ shapes,
      List.Forall₂ (HasShape schema) (fields.map (·.type)) shapes ∧
        Draft.Grows w draft after (Shape.branches .field 0 shapes))
      (layOutFields layOut fields draft) := by
  unfold layOutFields
  refine (Keeps.foldlM (fun rest (now : Draft) => ∃ done shapes, done ++ rest = fields ∧
    List.Forall₂ (HasShape schema) (done.map (·.type)) shapes ∧
      Draft.Grows w draft now (Shape.branches .field 0 shapes)) ?_
    ⟨[], [], rfl, .nil, Draft.grows_nil room⟩).mono ?_
  · rintro field rest now ⟨done, shapes, rfl, related, grown⟩
    refine (lays field.type now grown.slots_le).mono fun after ⟨shape, hasShape, further⟩ => ?_
    refine ⟨done ++ [field], shapes ++ [shape], by simp, ?_, grown.branch further nofun⟩
    rw [List.map_append]
    exact forall₂_concat related hasShape
  · rintro after ⟨done, shapes, rfl, related, grown⟩
    rw [List.append_nil]
    exact ⟨shapes, related, grown⟩

/-! ## Arrays -/

/-- An array is put in around its element, which was put into a body of its own. -/
theorem Draft.Grows.ensures_putArray {before inner : Draft} {length : Nat} {shape : Shape}
    (pos : 0 < length)
    (grown : Grows w { before with container := .emptyBody } inner shape.parts) :
    Ensures External (fun after => Grows w before after (Shape.array length shape).parts)
      (Draft.putArray w span length inner.container.zones
        { inner with container := before.container }) := by
  obtain ⟨items, put, realizes⟩ := grown.items
  obtain ⟨zones, whole⟩ := realizes.body put
  refine (Draft.ensures_putArray { inner with container := before.container } pos zones
    (fun a => (whole a).1) grown.packs.size_le).mono fun after repeats => ?_
  obtain ⟨ready, put, repeating⟩ := repeats.ready
  refine ⟨?_, ?_, repeats.packs before.packs grown.packs rfl, ready, put, repeating.finish⟩
  · rw [repeats.slots, Shape.parts, List.length_map]
    exact grown.slots_eq
  · rw [repeats.slots]
    exact grown.slots_le

theorem keeps_layOutArray (lays : Lays schema w layOut) (element : TypeId) {length : Nat}
    (pos : 0 < length) (room : draft.slots ≤ maxSlots) :
    Runs schema w (fun after => ∃ shape, HasShape schema element shape ∧
      Draft.Grows w draft after (Shape.array length shape).parts)
      (layOutArray w span layOut element length draft) := by
  unfold layOutArray
  dsimp only [Draft.exchange]
  refine (lays element { draft with container := .emptyBody } room).bind
    fun inner ⟨shape, hasShape, grown⟩ => ?_
  exact (Keeps.lift (grown.ensures_putArray pos)).mono fun after further =>
    ⟨shape, hasShape, further⟩

/-! ## Named types -/

theorem Primitive.bytes_ofSize_size (p : Primitive) : (Alignment.ofSize p.size).bytes = p.size := by
  cases p <;> decide

theorem Primitive.size_pos (p : Primitive) : 0 < p.size := by cases p <;> decide

/-- A primitive field takes a slot and is one part. -/
theorem ensures_putPrimitive (p : Primitive) :
    Ensures External (fun after => Draft.Grows w draft after (Shape.leaf p.size p.size).parts)
      (draft.putLeaf w span (.ofSize p.size) p.size) := by
  have put := Draft.ensures_putLeaf w span draft p.size_pos
    (Alignment.bytes_ofSize_dvd p.size)
  rw [p.bytes_ofSize_size] at put
  rwa [Shape.parts]

/-- A struct without trailing fields has fixed fields only. -/
theorem Template.Sound.filter_eq {t : Template} {fields : List Field} (sound : t.Sound schema w)
    (fixed : t.trailing = []) (known : schema.structFields? t.name = some fields) :
    fields.filter (fun field => !schema.isTrailing field) = fields := by
  have names := sound.trailing fields known
  rw [fixed] at names
  have none : fields.filter schema.isTrailing = [] := List.map_eq_nil_iff.mp names.symm
  refine List.filter_eq_self.mpr fun field member => ?_
  simpa using List.filter_eq_nil_iff.mp none field member

/-- A struct without trailing fields has the shape of all of its fields. -/
theorem Template.Sound.record {t : Template} {key : String} {fields : List Field} {declared : Span}
    (sound : t.Sound schema w) (fixed : t.trailing = [])
    (declaration : schema.declaration? t.name = some ⟨key, .struct fields, declared⟩) :
    ∃ shapes, List.Forall₂ (HasShape schema) (fields.map (·.type)) shapes ∧
      t.Realizes w (Shape.record shapes).parts := by
  obtain ⟨_, ⟨fields', shapes, known, related, rfl⟩, realizes⟩ := sound.shape
  have same : schema.structFields? t.name = some fields := by
    unfold Schema.structFields?
    rw [declaration]
  obtain rfl := Option.some.inj (known.symm.trans same)
  rw [sound.filter_eq fixed known] at related
  exact ⟨shapes, related, realizes⟩

theorem keeps_layOutNamed {setting : Setting} {struct : StructLayout} {id : TypeId} {name : String}
    (finds : Finds setting.schema setting.width struct)
    (node : setting.schema.type? id = some ⟨.named name, span⟩) :
    Runs setting.schema setting.width (fun after => ∃ shape, HasShape setting.schema id shape ∧
      Draft.Grows setting.width draft after shape.parts)
      (layOutNamed setting span struct name draft) := by
  obtain ⟨run, step⟩ := setting.schema.exists_nameStep name
  rw [step.layOutNamed_eq rfl]
  cases step with
  | unknown | badEnum => exact Keeps.throw rfl
  | enum declaration =>
    exact (Keeps.lift (ensures_putPrimitive _)).mono fun after grown =>
      ⟨_, .enum node declaration, grown⟩
  | struct declaration =>
    refine (finds name span).bind fun t ⟨sound, same⟩ => ?_
    split
    · rename_i fixed
      rw [← same] at declaration node
      obtain ⟨shapes, related, realizes⟩ :=
        sound.record (List.isEmpty_iff.mp fixed) declaration
      exact (Keeps.lift (Draft.ensures_embed realizes)).mono fun after grown =>
        ⟨_, .struct node declaration related, grown⟩
    · exact Keeps.throw rfl

/-! ## Variants -/

theorem putAll_arm {items old : List Item} {last : Container}
    (put : PutAll w items (.arm old) last) : last = .arm (items.reverse ++ old) := by
  induction items generalizing old with
  | nil => exact (Option.some.inj put).symm
  | cons item rest ih =>
    have later : PutAll w rest (.arm (item :: old)) last := put
    rw [ih later, List.reverse_cons, List.append_assoc]
    rfl

/-- The fields of some arms are collected, each leaf in the arm of its shape, and the draft is in
an empty arm. -/
structure Collects (w : Width) (before now : Draft) (shapes : List Shape) (arms : List Arm) :
    Prop where
  slots_eq : now.slots = before.slots + (Shape.branches .arm 0 shapes).length
  slots_le : now.slots ≤ maxSlots
  packs : Extends before.packs now.packs
  container : now.container = .arm []
  realizes : Realizes now.packs before.packs.size before.slots (Shape.branches .arm 0 shapes)
    (arms.flatMap (·.pending))
  length_eq : arms.length = shapes.length
  indices : arms.map (·.index) = List.range arms.length
  collected : ∀ arm ∈ arms, arm.Collected w
  paths : ∀ arm ∈ arms, ∀ item ∈ arm.pending, ∀ leaf ∈ item.leaves, ∃ inner,
    ((Legend.of now.packs before.slots (Shape.branches .arm 0 shapes)).part leaf.slot).path =
      .arm arm.index :: inner

theorem collects_nil (room : draft.slots ≤ maxSlots) (empty : draft.container = .arm []) :
    Collects w draft draft [] [] where
  slots_eq := rfl
  slots_le := room
  packs := Extends.refl _
  container := empty
  realizes := Realizes.nil _ _ _
  length_eq := rfl
  indices := rfl
  collected := fun _ absent => absurd absent List.not_mem_nil
  paths := fun _ absent => absurd absent List.not_mem_nil

/-- One more arm is collected when its type was put into an empty arm. -/
theorem Collects.step {before now next : Draft} {shapes : List Shape} {shape : Shape}
    {arms : List Arm} {arm : Arm} (h : Collects w before now shapes arms)
    (grown : Draft.Grows w now next shape.parts)
    (made : Arm.of? w arms.length next.container.items = some arm) :
    Collects w before { next with container := .arm [] } (shapes ++ [shape]) (arms ++ [arm]) := by
  obtain ⟨items, put, realizes⟩ := grown.items
  rw [h.container] at put
  have content : next.container.items = items := by
    rw [putAll_arm put, List.append_nil]
    exact List.reverse_reverse items
  rw [content] at made
  obtain ⟨collected, index, pending⟩ :=
    Arm.collected_of? (fun item member => (realizes.sound item member).whole) made
  have further := Shape.branches_concat .arm shapes shape
  rw [← h.length_eq] at further
  have under := realizes.under (.arm arms.length) fun _ differ => by cases differ
  rw [h.slots_eq] at under
  have joined := h.realizes.append under grown.packs h.packs.size_le
  refine ⟨?_, grown.slots_le, h.packs.trans grown.packs, rfl, ?_, ?_, ?_, fun other member => ?_,
    fun other member item inner leaf inside => ?_⟩
  · rw [further, List.length_append, List.length_map, ← Nat.add_assoc, ← h.slots_eq]
    exact grown.slots_eq
  · rw [further, List.flatMap_append, List.flatMap_singleton, pending]
    exact joined
  · rw [List.length_append, List.length_append, h.length_eq]
    rfl
  · rw [List.map_append, h.indices, List.length_append, List.length_singleton,
      List.range_succ, List.map_singleton, index]
  · obtain earlier | new := List.mem_append.mp member
    · exact h.collected other earlier
    · rw [List.mem_singleton.mp new]
      exact collected
  · rw [further]
    show ∃ path, (((Shape.branches .arm 0 shapes ++
      shape.parts.map (Part.under (.arm arms.length)))[leaf.slot - before.slots]?).getD _).path = _
    obtain earlier | new := List.mem_append.mp member
    · have slot := h.realizes.slot_mem (List.mem_flatMap.mpr ⟨other, earlier, inner⟩) inside
      obtain ⟨path, known⟩ := h.paths other earlier item inner leaf inside
      refine ⟨path, ?_⟩
      rw [List.getElem?_append_left (by omega)]
      exact known
    · rw [List.mem_singleton.mp new, pending] at inner
      have slot := realizes.slot_mem inner inside
      rw [h.slots_eq] at slot
      have inside : leaf.slot - before.slots - (Shape.branches .arm 0 shapes).length <
        shape.parts.length := by omega
      rw [List.mem_singleton.mp new, index, List.getElem?_append_right (by omega),
        List.getElem?_map, List.getElem?_eq_getElem inside]
      exact ⟨_, rfl⟩

theorem keeps_collectArms (lays : Lays schema w layOut) {before : Draft} (ids : List TypeId)
    {shapes : List Shape} {collected : List Arm}
    (h : Collects w before draft shapes collected.reverse) :
    Runs schema w (fun r => ∃ more, List.Forall₂ (HasShape schema) ids more ∧
      Collects w before r.2 (shapes ++ more) r.1)
      (collectArms w span layOut collected.length collected ids draft) := by
  induction ids generalizing shapes collected draft with
  | nil =>
    refine Keeps.pure ⟨[], .nil, ?_⟩
    rwa [List.append_nil]
  | cons id rest ih =>
    unfold collectArms
    refine (lays id draft h.slots_le).bind fun next ⟨shape, hasShape, grown⟩ => ?_
    dsimp only [Draft.exchange]
    split
    · rename_i arm made
      rw [← collected.length_reverse] at made
      have step := h.step grown made
      rw [← List.reverse_cons] at step
      refine (ih step).mono fun r ⟨more, related, done⟩ =>
        ⟨shape :: more, .cons hasShape related, ?_⟩
      rwa [List.append_assoc] at done
    · exact Keeps.throw rfl

/-- Fields of different arms are never live together. -/
theorem Collects.divided {before now : Draft} {shapes : List Shape} {arms : List Arm}
    (h : Collects w before now shapes arms) :
    (byRequirement arms).Pairwise fun a b => ∀ x ∈ a.pending, ∀ y ∈ b.pending, ∀ l ∈ x.leaves,
      ∀ m ∈ y.leaves, (Legend.of now.packs before.slots (Shape.branches .arm 0 shapes)).Divided
        l m := by
  have perm := byRequirement_perm arms
  have distinct : ((byRequirement arms).map (·.index)).Nodup := by
    refine (perm.map _).nodup_iff.mpr ?_
    rw [h.indices]
    exact List.nodup_range
  refine (List.pairwise_map.mp distinct).imp_of_mem
    fun {a b} here there differ x hx y hy l hl m hm => ?_
  obtain ⟨inner, path⟩ := h.paths a (perm.mem_iff.mp here) x hx l hl
  obtain ⟨inner', path'⟩ := h.paths b (perm.mem_iff.mp there) y hy m hm
  exact ⟨a.index, b.index, inner, inner', differ, path, path'⟩

theorem ensures_putTag (arms : Nat) :
    Ensures External
      (fun after => Draft.Grows w draft after [⟨[.tag], tagSize arms, tagSize arms⟩])
      (draft.putLeaf w span (.ofSize (tagSize arms)) (tagSize arms)) := by
  have unit : 0 < tagSize arms ∧ (Alignment.ofSize (tagSize arms)).bytes = tagSize arms := by
    unfold tagSize
    split <;> decide
  have put := Draft.ensures_putLeaf w span draft unit.1
    (Alignment.bytes_ofSize_dvd (tagSize arms))
  rw [unit.2] at put
  exact put.mono fun after grown => grown.under .tag nofun

/-- A variant is put in when its arms are collected, behind its tag. -/
theorem Collects.ensures_putVariant {options : Options} {tagged filled : Draft}
    {shapes : List Shape} {arms : List Arm} {tag : Nat} {r : Resolution}
    (tagging : Draft.Grows w draft tagged [⟨[.tag], tagSize shapes.length, tagSize shapes.length⟩])
    (collects : Collects w { tagged with container := .arm [] } filled shapes arms)
    (sound : r.storage.Sound w (byRequirement arms)) :
    Ensures External (fun after => Draft.Grows w draft after (Shape.variant shapes).parts)
      (Draft.putVariant w options span tag shapes.length r
        { filled with container := tagged.container }) := by
  refine Draft.ensures_putVariant.mono fun after ⟨slots, packs, put⟩ => ?_
  have perm : ((byRequirement arms).flatMap (·.pending)).Perm (arms.flatMap (·.pending)) :=
    (byRequirement_perm arms).flatMap_right _
  have zones := (collects.realizes.perm perm).storage sound collects.divided
  have shared : Draft.Grows w tagged after (Shape.branches .arm 0 shapes) := by
    refine ⟨?_, ?_, ?_, _, put, ?_⟩
    · rw [slots]
      exact collects.slots_eq
    · rw [slots]
      exact collects.slots_le
    · rw [packs]
      exact collects.packs
    · rw [packs]
      exact zones
  rw [Shape.parts]
  exact tagging.trans shared

theorem keeps_layOutVariant {options : Options} (lays : Lays schema w layOut)
    (arms : List TypeId) :
    Runs schema w (fun after => ∃ shapes, List.Forall₂ (HasShape schema) arms shapes ∧
      Draft.Grows w draft after (Shape.variant shapes).parts)
      (layOutVariant w options span layOut arms draft) := by
  unfold layOutVariant
  dsimp only [Draft.exchange]
  apply (Keeps.lift (ensures_putTag arms.length)).bind
  intro tagged tag
  have none : Collects w { tagged with container := .arm [] }
    { tagged with container := .arm [] } [] (List.reverse []) := collects_nil tag.slots_le rfl
  refine (keeps_collectArms lays arms none).bind
    fun ⟨collected, filled⟩ ⟨shapes, related, collects⟩ => ?_
  dsimp only at collects ⊢
  rw [List.nil_append] at collects
  refine (Keeps.lift ((ensures_resolution w options.maxSearchBytes collected).mapError
    fun _ overflow => external_locate overflow)).bind fun r sound => ?_
  rw [related.length_eq] at tag ⊢
  exact (Keeps.lift (collects.ensures_putVariant tag sound)).mono fun after grown =>
    ⟨shapes, related, grown⟩

/-! ## All types -/

theorem Schema.Refuses.external {schema : Schema} {id : TypeId} {e : LayoutError}
    (refuses : schema.Refuses id e) : External e := by
  cases refuses <;> exact rfl

/-- Laying out a type puts its shape into the draft, as deep as its nodes may be nested. -/
theorem keeps_layOutType {setting : Setting} {struct : StructLayout}
    (finds : Finds setting.schema setting.width struct) (depth : Nat) :
    Lays setting.schema setting.width (layOutType setting struct depth) := by
  induction depth with
  | zero => exact fun id draft _ => Keeps.throw rfl
  | succ depth ih =>
    intro id draft room
    obtain ⟨run, step⟩ := setting.schema.exists_typeStep id
    rw [layOutType_succ, step.layOutForm_eq rfl]
    cases step with
    | refused refuses => exact Keeps.throw refuses.external
    | @primitive p span node =>
      exact (Keeps.lift (ensures_putPrimitive p)).mono fun after grown =>
        ⟨_, .primitive node, grown⟩
    | @string length span node pos =>
      have whole : Alignment.one.bytes ∣ length := Nat.one_dvd length
      refine (Keeps.lift (Draft.ensures_putLeaf setting.width span draft pos whole)).mono
        fun after grown => ⟨_, .string node, ?_⟩
      rw [Shape.parts]
      exact grown
    | array node pos =>
      exact (keeps_layOutArray ih _ pos room).mono fun after ⟨shape, hasShape, grown⟩ =>
        ⟨_, .array node hasShape, grown⟩
    | variant node =>
      exact (keeps_layOutVariant ih _).mono fun after ⟨shapes, related, grown⟩ =>
        ⟨_, .variant node related, grown⟩
    | record node =>
      refine (keeps_layOutFields ih _ room).mono fun after ⟨shapes, related, grown⟩ =>
        ⟨_, .record node related, ?_⟩
      rw [Shape.parts]
      exact grown
    | named node => exact keeps_layOutNamed finds node

end PackedLayout
