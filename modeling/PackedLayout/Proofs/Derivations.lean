import Mathlib.Data.List.Infix
import PackedLayout.Proofs.Finishing
import PackedLayout.Proofs.Footprints
import PackedLayout.Proofs.Transparency

/-!
# How drafts come about

A derivation says how a shape was put into a draft, step by step and without the engine around it.
What every layout has in common is proved by induction on derivations.

- `Puts`: a shape is put into a draft, in mutual recursion with its fields and its arms, and with
  the structs that are copied;
- `Puts.grows`, `Makes.realizes`: what is put in then, and what a template realizes;
- `Puts.warnings`: a draft keeps its warnings, in front of the new ones;
- `ends_layOutType_puts`, `ends_freshTemplate_makes`: what ends well has a derivation.
-/

namespace PackedLayout

mutual

/-- A shape is put into a draft. -/
inductive Puts (setting : Setting) : Shape → Draft → Draft → Prop
  | leaf {size : Nat} {align : Alignment} {span : Span} {before after : Draft} (pos : 0 < size)
    (whole : align.bytes ∣ size)
    (put : before.putLeaf setting.width span align size = .ok after) :
    Puts setting (.leaf size align.bytes) before after
  | array {length : Nat} {element : Shape} {span : Span} {before inner after : Draft}
    (pos : 0 < length)
    (inside : Puts setting element { before with container := .emptyBody } inner)
    (put : Draft.putArray setting.width span length inner.container.zones
      { inner with container := before.container } = .ok after) :
    Puts setting (.array length element) before after
  | variant {shapes : List Shape} {arms : List Arm} {r : Resolution} {span : Span}
    {before tagged filled after : Draft}
    (tag : before.putLeaf setting.width span (.ofSize (tagSize shapes.length))
      (tagSize shapes.length) = .ok tagged)
    (inside : PutsArms setting shapes arms { tagged with container := .arm [] } filled)
    (resolved : Resolution.ofArms setting.width setting.options.maxSearchBytes arms = .ok r)
    (put : Draft.putVariant setting.width setting.options span before.slots shapes.length r
      { filled with container := tagged.container } = .ok after) :
    Puts setting (.variant shapes) before after
  | record {shapes : List Shape} {before after : Draft}
    (inside : PutsFields setting shapes before after) : Puts setting (.record shapes) before after
  | struct {shapes : List Shape} {t : Template} {span : Span} {before after : Draft}
    (made : Makes setting shapes t) (put : before.embed setting.width span t = .ok after) :
    Puts setting (.record shapes) before after

/-- Shapes are put into a draft one after the other. -/
inductive PutsFields (setting : Setting) : List Shape → Draft → Draft → Prop
  | nil {draft : Draft} : PutsFields setting [] draft draft
  | concat {shapes : List Shape} {shape : Shape} {before now after : Draft}
    (earlier : PutsFields setting shapes before now) (last : Puts setting shape now after) :
    PutsFields setting (shapes ++ [shape]) before after

/-- The shapes of arms are put into a draft, each into an arm of its own that is collected. -/
inductive PutsArms (setting : Setting) : List Shape → List Arm → Draft → Draft → Prop
  | nil {draft : Draft} : PutsArms setting [] [] draft draft
  | concat {shapes : List Shape} {shape : Shape} {arms : List Arm} {arm : Arm}
    {before now next : Draft} (earlier : PutsArms setting shapes arms before now)
    (last : Puts setting shape now next)
    (collected : Arm.of? setting.width arms.length next.container.items = some arm) :
    PutsArms setting (shapes ++ [shape]) (arms ++ [arm]) before
      { next with container := .arm [] }

/-- The fixed fields of a struct are put into an empty draft. Of a dynamic array only the element is
laid out, and its warnings are kept. -/
inductive PutsBody (setting : Setting) : List Shape → Draft → Prop
  | nil : PutsBody setting [] .empty
  | fixed {shapes : List Shape} {shape : Shape} {draft after : Draft}
    (earlier : PutsBody setting shapes draft) (last : Puts setting shape draft after) :
    PutsBody setting (shapes ++ [shape]) after
  | dynamic {shapes : List Shape} {element : Shape} {draft measured : Draft}
    (earlier : PutsBody setting shapes draft) (inside : Puts setting element .empty measured) :
    PutsBody setting shapes { draft with warnings := draft.warnings ++ measured.warnings }

/-- A template is made of a struct with these fixed fields. -/
inductive Makes (setting : Setting) : List Shape → Template → Prop
  | made {shapes : List Shape} {draft : Draft} {footprint : UnitCounts}
    (body : PutsBody setting shapes draft)
    (counted : footprint? setting.width draft.container.zones = some footprint) (name : String)
    (trailing : List TrailingField) :
    Makes setting shapes ⟨name, draft.slots, draft.container.zones, footprint, draft.packs,
      draft.variants, trailing, draft.warnings⟩

end

variable {setting : Setting} {struct : StructLayout} {layOut : TypeLayout} {span : Span}
  {shape : Shape} {shapes : List Shape} {arms : List Arm} {t : Template}
  {draft before now after : Draft}

/-! ## What is put in -/

mutual

/-- The parts of a shape that is put into a draft are in the draft. -/
theorem Puts.grows {shape : Shape} {before after : Draft} :
    Puts setting shape before after → before.slots ≤ maxSlots →
      Draft.Grows setting.width before after shape.parts
  | .leaf pos whole put, _ => by
    rw [Shape.parts]
    exact (Draft.ensures_putLeaf _ _ _ pos whole).of_ok put
  | .array pos inside put, room => ((inside.grows room).ensures_putArray pos).of_ok put
  | .variant tag inside resolved put, _ => by
    have tagging := (ensures_putTag _).of_ok tag
    have collects := inside.collects tagging.slots_le rfl
    have sound := (ensures_resolution _ _ _).of_ok resolved
    exact (collects.ensures_putVariant tagging sound).of_ok put
  | .record inside, room => by
    rw [Shape.parts]
    exact inside.grows room
  | .struct made put, _ => (Draft.ensures_embed made.realizes).of_ok put

theorem PutsFields.grows {shapes : List Shape} {before after : Draft} :
    PutsFields setting shapes before after → before.slots ≤ maxSlots →
      Draft.Grows setting.width before after (Shape.branches .field 0 shapes)
  | .nil, room => Draft.grows_nil room
  | .concat earlier last, room => by
    have sofar := earlier.grows room
    exact sofar.branch (last.grows sofar.slots_le) nofun

theorem PutsArms.collects {shapes : List Shape} {arms : List Arm} {before now : Draft} :
    PutsArms setting shapes arms before now → before.slots ≤ maxSlots →
      before.container = .arm [] → Collects setting.width before now shapes arms
  | .nil, room, empty => collects_nil room empty
  | .concat earlier last collected, room, empty => by
    have sofar := earlier.collects room empty
    exact sofar.step (last.grows sofar.slots_le) collected

theorem PutsBody.grows {shapes : List Shape} {draft : Draft} :
    PutsBody setting shapes draft →
      Draft.Grows setting.width .empty draft (Shape.branches .field 0 shapes)
  | .nil => Draft.grows_nil (Nat.zero_le _)
  | .fixed earlier last => by
    have sofar := earlier.grows
    exact sofar.branch (last.grows sofar.slots_le) nofun
  | .dynamic earlier _ => by
    have sofar := earlier.grows
    exact ⟨sofar.slots_eq, sofar.slots_le, sofar.packs, sofar.items⟩

theorem Makes.realizes {shapes : List Shape} {t : Template} :
    Makes setting shapes t → t.Realizes setting.width (Shape.record shapes).parts
  | .made body counted name trailing => body.grows.template counted name trailing

end

mutual

/-- A draft keeps its warnings, in front of the new ones. -/
theorem Puts.warnings {shape : Shape} {before after : Draft} :
    Puts setting shape before after → before.warnings.toList <+: after.warnings.toList
  | .leaf _ _ put => by rw [((Draft.keepsReports_putLeaf _ _).of_ok put).2]
  | .array _ inside put => by
    rw [((Draft.keepsReports_putArray _ _).of_ok put).2]
    exact inside.warnings
  | .variant tag inside _ put => by
    have arms := inside.warnings
    have warned := congrArg Draft.warnings (Draft.of_putVariant put).2.1
    rw [warned, ← ((Draft.keepsReports_putLeaf _ _).of_ok tag).2]
    exact arms.trans (by simp)
  | .record inside => inside.warnings
  | .struct _ put => by
    have warned := congrArg Draft.warnings (Draft.of_embed put).1
    simp [warned]

theorem PutsFields.warnings {shapes : List Shape} {before after : Draft} :
    PutsFields setting shapes before after → before.warnings.toList <+: after.warnings.toList
  | .nil => List.prefix_rfl
  | .concat earlier last => earlier.warnings.trans last.warnings

theorem PutsArms.warnings {shapes : List Shape} {arms : List Arm} {before now : Draft} :
    PutsArms setting shapes arms before now → before.warnings.toList <+: now.warnings.toList
  | .nil => List.prefix_rfl
  | .concat earlier last _ => earlier.warnings.trans last.warnings

end

theorem PutsArms.slots_le {shapes : List Shape} {arms : List Arm} {before now : Draft} :
    PutsArms setting shapes arms before now → before.slots ≤ maxSlots → now.slots ≤ maxSlots
  | .nil, room => room
  | .concat earlier last _, room => (last.grows (earlier.slots_le room)).slots_le

/-! ## What ends well -/

/-- A struct is found as a template of its fixed fields. -/
def FindsMade (setting : Setting) (struct : StructLayout) : Prop :=
  ∀ name span, Ends setting.schema setting.width
    (fun t => ∃ shapes, setting.schema.RootShape name (.record shapes) ∧ Makes setting shapes t)
    (struct name span)

/-- A type that is put into a draft has a shape that is put into it. -/
def PutsTypes (setting : Setting) (layOut : TypeLayout) : Prop :=
  ∀ id draft, Ends setting.schema setting.width
    (fun after => ∃ shape, HasShape setting.schema id shape ∧ Puts setting shape draft after)
    (layOut id draft)

/-- A run that may fail in any way ends with what it gives. -/
theorem ensures_eq_ok {α : Type} (run : Except LayoutError α) :
    Ensures (fun _ => True) (fun a => run = .ok a) run := by
  cases run <;> trivial

theorem ends_layOutFields_puts (puts : PutsTypes setting layOut) (fields : List Field)
    (draft : Draft) :
    Ends setting.schema setting.width (fun after => ∃ shapes,
      List.Forall₂ (HasShape setting.schema) (fields.map (·.type)) shapes ∧
        PutsFields setting shapes draft after) (layOutFields layOut fields draft) := by
  unfold layOutFields
  refine (Keeps.foldlM (fun rest (now : Draft) => ∃ done shapes, done ++ rest = fields ∧
    List.Forall₂ (HasShape setting.schema) (done.map (·.type)) shapes ∧
      PutsFields setting shapes draft now) ?_ ⟨[], [], rfl, .nil, .nil⟩).mono ?_
  · rintro field rest now ⟨done, shapes, rfl, related, earlier⟩
    refine (puts field.type now).mono fun after ⟨shape, hasShape, last⟩ => ?_
    have further := forall₂_concat related hasShape
    exact ⟨done ++ [field], shapes ++ [shape], by simp, by simpa using further,
      .concat earlier last⟩
  · rintro after ⟨done, shapes, rfl, related, inside⟩
    exact ⟨shapes, by simpa using related, inside⟩

theorem ends_collectArms_puts (puts : PutsTypes setting layOut) {before : Draft} (ids : List TypeId)
    {done : List TypeId} {collected : List Arm}
    (related : List.Forall₂ (HasShape setting.schema) done shapes)
    (earlier : PutsArms setting shapes collected.reverse before draft) :
    Ends setting.schema setting.width (fun r => ∃ all,
      List.Forall₂ (HasShape setting.schema) (done ++ ids) all ∧
        PutsArms setting all r.1 before r.2)
      (collectArms setting.width span layOut collected.length collected ids draft) := by
  induction ids generalizing done shapes collected draft with
  | nil => exact Keeps.pure ⟨shapes, by simpa using related, earlier⟩
  | cons id rest ih =>
    unfold collectArms
    refine (puts id draft).bind ?_
    rintro next ⟨shape, hasShape, last⟩
    dsimp only [Draft.exchange]
    split
    · rename_i arm made
      rw [← collected.length_reverse] at made
      have step := PutsArms.concat earlier last made
      rw [← List.reverse_cons] at step
      simpa using ih (forall₂_concat related hasShape) step
    · exact Keeps.throw trivial

theorem ends_layOutVariant_puts (puts : PutsTypes setting layOut) (arms : List TypeId)
    (draft : Draft) :
    Ends setting.schema setting.width (fun after => ∃ shapes,
      List.Forall₂ (HasShape setting.schema) arms shapes ∧
        Puts setting (.variant shapes) draft after)
      (layOutVariant setting.width setting.options span layOut arms draft) := by
  unfold layOutVariant
  dsimp only [Draft.exchange]
  refine (Keeps.lift (ensures_eq_ok _)).bind fun tagged tag => ?_
  refine (@ends_collectArms_puts setting layOut span [] _ puts { tagged with container := .arm [] }
    arms [] [] .nil .nil).bind fun ⟨collected, filled⟩ ⟨shapes, related, inside⟩ => ?_
  rw [List.nil_append] at related
  rw [related.length_eq] at tag ⊢
  have resolution : Ensures (fun _ => True) (fun r =>
      Resolution.ofArms setting.width setting.options.maxSearchBytes collected = .ok r)
      ((Resolution.ofArms setting.width setting.options.maxSearchBytes collected).mapError
        (Failure.locate span)) := by
    cases Resolution.ofArms setting.width setting.options.maxSearchBytes collected <;> trivial
  refine (Keeps.lift resolution).bind fun r resolved => ?_
  exact (Keeps.lift (ensures_eq_ok _)).mono fun after put =>
    ⟨shapes, related, .variant tag inside resolved put⟩

theorem ends_layOutNamed_puts (finds : Finds setting.schema setting.width struct)
    (made : FindsMade setting struct) {id : TypeId} {name : String}
    (node : setting.schema.type? id = some ⟨.named name, span⟩) (draft : Draft) :
    Ends setting.schema setting.width (fun after => ∃ shape,
      HasShape setting.schema id shape ∧ Puts setting shape draft after)
      (layOutNamed setting span struct name draft) := by
  obtain ⟨run, step⟩ := setting.schema.exists_nameStep name
  rw [step.layOutNamed_eq rfl]
  cases step with
  | unknown | badEnum => exact Keeps.throw trivial
  | @enum _ repr _ _ declaration =>
    have put (after : Draft) := @Puts.leaf setting _ _ span draft after repr.size_pos
      (Alignment.bytes_ofSize_dvd repr.size)
    rw [repr.bytes_ofSize_size] at put
    exact (Keeps.lift (ensures_eq_ok _)).mono fun after ok =>
      ⟨_, .enum node declaration, put after ok⟩
  | struct declaration =>
    refine ((made name span).ensuring (finds name span) fun _ good => good).bind ?_
    rintro t ⟨⟨shapes, ⟨fields', shapes', known, related, same⟩, makes⟩, sound, rfl⟩
    obtain rfl := Shape.record.inj same
    split
    · rename_i fixed
      have same := Schema.structFields?_eq_some.mpr ⟨_, _, declaration⟩
      obtain rfl := Option.some.inj (known.symm.trans same)
      rw [sound.filter_eq (List.isEmpty_iff.mp fixed) known] at related
      exact (Keeps.lift (ensures_eq_ok _)).mono fun after put =>
        ⟨_, .struct node declaration related, .struct makes put⟩
    · exact Keeps.throw trivial

/-- A type that is laid out has a derivation. -/
theorem ends_layOutType_puts (finds : Finds setting.schema setting.width struct)
    (made : FindsMade setting struct) (depth : Nat) :
    PutsTypes setting (layOutType setting struct depth) := by
  induction depth with
  | zero => exact fun id draft => Keeps.throw trivial
  | succ depth ih =>
    intro id draft
    obtain ⟨run, step⟩ := setting.schema.exists_typeStep id
    rw [layOutType_succ, step.layOutForm_eq rfl]
    cases step with
    | refused => exact Keeps.throw trivial
    | @primitive p span node =>
      have put (after : Draft) := @Puts.leaf setting _ _ span draft after p.size_pos
        (Alignment.bytes_ofSize_dvd p.size)
      rw [p.bytes_ofSize_size] at put
      exact (Keeps.lift (ensures_eq_ok _)).mono fun after ok =>
        ⟨_, .primitive node, put after ok⟩
    | @string length span node pos =>
      exact (Keeps.lift (ensures_eq_ok _)).mono fun after ok => ⟨_, .string node,
        @Puts.leaf setting length .one _ _ _ pos (Nat.one_dvd _) ok⟩
    | array node pos =>
      unfold layOutArray
      refine (ih _ _).bind fun inner ⟨shape, hasShape, inside⟩ => ?_
      exact (Keeps.lift (ensures_eq_ok _)).mono fun after put => ⟨_, .array node hasShape,
        .array pos inside put⟩
    | variant node =>
      exact (ends_layOutVariant_puts ih _ draft).mono fun after ⟨shapes, related, inside⟩ =>
        ⟨_, .variant node related, inside⟩
    | record node =>
      exact (ends_layOutFields_puts ih _ draft).mono fun after ⟨shapes, related, inside⟩ =>
        ⟨_, .record node related, .record inside⟩
    | named node => exact ends_layOutNamed_puts finds made node draft

theorem ends_elementFootprint_puts (finds : Finds setting.schema setting.width struct)
    (made : FindsMade setting struct) (element : TypeId) :
    Ends setting.schema setting.width (fun r => ∃ shape measured,
      HasShape setting.schema element shape ∧ Puts setting shape .empty measured ∧
        r.2 = measured.warnings) (elementFootprint setting struct element) := by
  unfold elementFootprint
  refine (ends_layOutType_puts finds made _ element .empty).bind
    fun measured ⟨shape, hasShape, inside⟩ => ?_
  split
  · exact Keeps.pure ⟨shape, measured, hasShape, inside, rfl⟩
  · exact Keeps.throw trivial

/-- The fixed fields of a struct up to some place are in the draft. -/
def BodySofar (setting : Setting) (done : List Field) (draft : Draft) : Prop :=
  ∃ shapes, List.Forall₂ (HasShape setting.schema)
    ((done.filter fun field => !setting.schema.isTrailing field).map (·.type)) shapes ∧
      PutsBody setting shapes draft

theorem ends_layOutField_puts (finds : Finds setting.schema setting.width struct)
    (made : FindsMade setting struct) {done : List Field} {sofar : Draft × List TrailingField}
    (field : Field) (h : BodySofar setting done sofar.1) :
    Ends setting.schema setting.width (fun after => BodySofar setting (done ++ [field]) after.1)
      (layOutField setting struct sofar field) := by
  obtain ⟨shapes, related, body⟩ := h
  obtain ⟨run, step⟩ := setting.schema.exists_fieldStep field
  rw [step.layOutField_eq rfl]
  cases step with
  | string node =>
    have trailing : setting.schema.isTrailing field = true := by rw [Schema.isTrailing, node]
    exact Keeps.pure ⟨shapes, by simpa [trailing] using related, body⟩
  | @dynamic element span node =>
    have trailing : setting.schema.isTrailing field = true := by rw [Schema.isTrailing, node]
    refine (ends_elementFootprint_puts finds made element).bind ?_
    rintro ⟨footprint, _⟩ ⟨shape, measured, _, inside, rfl⟩
    dsimp only
    split
    · exact Keeps.throw trivial
    · exact Keeps.pure ⟨shapes, by simpa [trailing] using related, .dynamic body inside⟩
  | fixed notString notDynamic =>
    have fixed := Schema.isTrailing_eq_false.mpr ⟨notString, notDynamic⟩
    refine (ends_layOutType_puts finds made _ field.type sofar.1).bind ?_
    rintro after ⟨shape, hasShape, last⟩
    have further := forall₂_concat related hasShape
    exact Keeps.pure ⟨shapes ++ [shape], by simpa [fixed] using further, .fixed body last⟩

theorem ends_layOutStruct_makes (finds : Finds setting.schema setting.width struct)
    (made : FindsMade setting struct) {name : String} {fields : List Field}
    (declared : setting.schema.structFields? name = some fields) (span : Span) :
    Ends setting.schema setting.width
      (fun t => ∃ shapes, setting.schema.RootShape name (.record shapes) ∧ Makes setting shapes t)
      (layOutStruct setting struct name fields span) := by
  unfold layOutStruct
  refine (Keeps.foldlM (fun rest (sofar : Draft × List TrailingField) => ∃ done,
    done ++ rest = fields ∧ BodySofar setting done sofar.1) (fun field rest sofar h => ?_)
    ⟨[], rfl, [], .nil, .nil⟩).bind fun ⟨draft, trailing⟩ h => ?_
  · obtain ⟨done, rfl, h⟩ := h
    exact (ends_layOutField_puts finds made field h).mono fun after further =>
      ⟨done ++ [field], by simp, further⟩
  · obtain ⟨done, rfl, shapes, related, body⟩ := h
    rw [List.append_nil] at declared
    dsimp only
    split
    · exact Keeps.throw trivial
    · rename_i footprint counted
      exact Keeps.pure ⟨shapes, ⟨done, shapes, declared, related, rfl⟩,
        .made body counted name trailing.reverse⟩

/-- A struct that is made anew has a derivation. -/
theorem ends_freshTemplate_makes (setting : Setting) (depth : Nat) :
    FindsMade setting (freshTemplate setting depth) :=
  ends_freshTemplate (fun depth ih _ _ span declared =>
    ends_layOutStruct_makes (finds_freshTemplate setting depth) ih declared span) depth

/-- What holds of a struct that is made anew holds of the template of a root struct. -/
theorem Ends.of_rootTemplate {good : Template → Prop} {root : String} {r : Template × Span}
    (ends : ∀ depth span, Ends setting.schema setting.width good
      (freshTemplate setting depth root span))
    (made : (Engine.rootTemplate setting root .empty).1 = .ok r) : good r.1 := by
  rw [Engine.rootTemplate_fresh] at made
  generalize (setting.schema.declaration? root).elim .dummy (·.span) = span at made
  have ends := (ends setting.schema.declarations.length span ⟨[], []⟩
    fun _ absent => absurd absent List.not_mem_nil).2
  cases run : (freshTemplate setting setting.schema.declarations.length root span ⟨[], []⟩).1 with
  | error e => simp [run, Except.map] at made
  | ok t =>
    simp only [run, Except.map, Except.ok.injEq] at made
    rw [← made]
    exact ends.of_ok run

/-- The template of a root struct has a derivation. -/
theorem exists_makes_of_rootTemplate {root : String} {r : Template × Span}
    (made : (Engine.rootTemplate setting root .empty).1 = .ok r) :
    ∃ shapes, setting.schema.RootShape root (.record shapes) ∧ Makes setting shapes r.1 :=
  Ends.of_rootTemplate (fun depth => ends_freshTemplate_makes setting depth root) made

/-- A root struct that is laid out has a derivation. -/
theorem exists_makes_of_layOut {schema : Schema} {root : String} {options : Options}
    {layout : Layout} (laid : schema.layOut root options = .ok layout) :
    ∃ shapes t, schema.RootShape root (.record shapes) ∧ Makes { schema, options } shapes t ∧
      t.toLayout .bits64 = .ok layout := by
  obtain ⟨t, span, made, done, _⟩ := (layOut_spec schema root options).of_ok laid
  obtain ⟨shapes, rootShape, makes⟩ := exists_makes_of_rootTemplate made
  exact ⟨shapes, t, rootShape, makes, done⟩

end PackedLayout
