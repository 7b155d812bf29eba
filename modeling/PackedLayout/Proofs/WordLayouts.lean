import PackedLayout.Proofs.Elements
import PackedLayout.Proofs.Needs
import PackedLayout.Proofs.ResolvedVariants
import PackedLayout.Proofs.Transparency

/-!
# Layouts in words

A layout that is made in words is the one in exact arithmetic. Where none is made because a size
overflows, the exact layout needs a number of bytes that is too large for a word.

- `steps_layOutStruct`, `steps_freshTemplate`: a struct only overflows for what it needs;
- `Template.toLayout_inWords`, `Layout.Realizes.elementOffset_exact`: so does a layout, and its
  elements begin at their exact offsets;
- `layOut_exact`: so does a root struct.
-/

namespace PackedLayout

section

variable (schema : Schema) (options : Options) (struct : StructLayout) (cache : Cache)
  (inner : String → Nat → Prop)

/-- What a field of a struct needs: its type in the draft, or its element in a draft of its own. -/
def FieldNeeds (sofar : Draft × List TrailingField) (field : Field) (n : Nat) : Prop :=
  TypeNeeds schema options struct cache inner (exactSetting schema options).maxDepth field.type
      sofar.1 n ∨
    ∃ element span, schema.type? field.type = some ⟨.array element .dynamic, span⟩ ∧
      TypeNeeds schema options struct cache inner (exactSetting schema options).maxDepth element
        .empty n

/-- Numbers of bytes that the fields of a struct need. -/
inductive FieldsNeed (fields : List Field) : Nat → Prop
  | field {sofar : Draft × List TrailingField} {field : Field} {n : Nat}
    (turn : Turn (fun sofar field =>
      (layOutField (exactSetting schema options) struct sofar field cache).1)
      fields (.empty, []) field sofar)
    (needs : FieldNeeds schema options struct cache inner sofar field n) : FieldsNeed fields n
  | whole {draft : Draft} {trailing : List TrailingField}
    (laid : (fields.foldlM (layOutField (exactSetting schema options) struct) (.empty, [])
      cache).1 = .ok (draft, trailing)) : FieldsNeed fields draft.bytes

end

/-- Numbers of bytes that a struct needs while the structs in `trail` are underway. -/
def StructNeeds (schema : Schema) (options : Options) : Nat → List String → String → Nat → Prop
  | 0, _, _, _ => False
  | structs + 1, trail, name, n => name ∉ trail ∧ ∃ fields,
    schema.structFields? name = some fields ∧
      FieldsNeed schema options (freshTemplate (exactSetting schema options) structs)
        ⟨[], name :: trail⟩ (StructNeeds schema options structs (name :: trail)) fields n

variable {schema : Schema} {options : Options} {cache : Cache} {span : Span}
  {struct struct' : StructLayout} {inner : String → Nat → Prop}

section Structs

variable (ordered : schema.Ordered) (finds : Finds schema .bits64 struct)
  (sound : cache.Sound schema .bits64)
  (found : ∀ name span, Steps cache (inner name) (fun _ => True) (struct name span)
    (struct' name span))

include ordered finds sound found

theorem steps_layOutNode {id : TypeId} {draft : Draft} (room : draft.slots ≤ maxSlots)
    (deep : id.raw < (exactSetting schema options).maxDepth) :
    Steps cache (TypeNeeds schema options struct' cache inner
        (exactSetting schema options).maxDepth id draft)
      (fun after => ∃ shape, HasShape schema id shape ∧
        Draft.Grows .bits64 draft after shape.parts)
      (layOutNode (wordSetting schema options) struct id draft)
      (layOutNode (exactSetting schema options) struct' id draft) :=
  ((steps_layOutType ordered finds sound found draft room deep).ensuring
    (@keeps_layOutType (wordSetting schema options) struct finds _ id draft room) sound).mono
      fun _ h => h.2

/-- The element of a dynamic array needs what its type needs. -/
theorem steps_elementFootprint {element : TypeId}
    (deep : element.raw < (exactSetting schema options).maxDepth) :
    Steps cache (TypeNeeds schema options struct' cache inner
        (exactSetting schema options).maxDepth element .empty)
      (fun r => r.1.Exact .bits64)
      (elementFootprint (wordSetting schema options) struct element)
      (elementFootprint (exactSetting schema options) struct' element) := by
  unfold elementFootprint
  refine (steps_layOutNode ordered finds sound found (Nat.zero_le _) deep).bind ?_
  intro draft ⟨shape, _, grown⟩ ran
  obtain ⟨whole, bytes⟩ := grown.body rfl
  obtain ⟨footprint, there, here | ⟨none, large⟩⟩ := footprint?_inWords whole
  · rw [here, there]
    exact Steps.pure (footprint?_spec whole here).1
  · rw [none]
    exact .inl ⟨_, _, rfl, LayoutError.overflows_overflow _,
      .whole ⟨draft, congrArg Prod.fst ran, rfl⟩, bytes ▸ large⟩

theorem steps_layOutField (sofar : Draft × List TrailingField) (field : Field)
    (room : sofar.1.slots ≤ maxSlots) (known : ∃ node, schema.type? field.type = some node) :
    Steps cache (FieldNeeds schema options struct' cache inner sofar field) (fun _ => True)
      (layOutField (wordSetting schema options) struct sofar field)
      (layOutField (exactSetting schema options) struct' sofar field) := by
  obtain ⟨entry, node⟩ := known
  have deep : field.type.raw < (exactSetting schema options).maxDepth :=
    Setting.raw_lt_maxDepth node
  obtain ⟨run, step⟩ := schema.exists_fieldStep field
  rw [step.layOutField_eq rfl, step.layOutField_eq rfl]
  cases step with
  | string => exact Steps.pure trivial
  | @dynamic element span node =>
    have earlier := ordered.earlier field.type _ span node element List.mem_cons_self
    refine ((steps_elementFootprint ordered finds sound found (Nat.lt_trans earlier deep)).allow
      fun n need => .inr ⟨element, span, node, need⟩).bind
        fun ⟨footprint, warnings⟩ exact_ _ => ?_
    dsimp only at exact_ ⊢
    cases footprint.largest? with
    | none => exact Steps.throw nofun
    | some align =>
      dsimp only
      rw [exact_.totalBytes]
      exact Steps.pure trivial
  | fixed =>
    exact ((steps_layOutNode ordered finds sound found room deep).allow fun _ => .inl).bind
      fun _ _ _ => Steps.pure trivial

/-- Laying out a struct in words only overflows for what its fields need. -/
theorem steps_layOutStruct {name : String} {fields : List Field}
    (declared : schema.structFields? name = some fields) (span : Span) :
    Steps cache (FieldsNeed schema options struct' cache inner fields) (fun _ => True)
      (layOutStruct (wordSetting schema options) struct name fields span)
      (layOutStruct (exactSetting schema options) struct' name fields span) := by
  unfold layOutStruct
  have start : FieldsSofar schema .bits64 [] (.empty, []) :=
    ⟨⟨[], .nil, Draft.grows_nil (Nat.zero_le _)⟩, rfl⟩
  refine ((Steps.foldlM (fun rest sofar => ∃ done, done ++ rest = fields ∧
    FieldsSofar schema .bits64 done sofar) ?_ ⟨[], rfl, start⟩).allow
      fun n ⟨field, sofar, turn, need⟩ => .field turn need).bind ?_
  · rintro field rest sofar ⟨done, rfl, h⟩
    have listed : field ∈ done ++ field :: rest := by simp
    obtain ⟨_, _, grown⟩ := h.1
    refine ((steps_layOutField ordered finds sound found sofar field grown.slots_le
      (ordered.known name _ declared field listed)).ensuring
        (@keeps_layOutField (wordSetting schema options) struct finds done sofar field h)
        sound).mono fun next ⟨_, further⟩ => ⟨done ++ [field], by simp, further⟩
  · rintro ⟨draft, trailing⟩ ⟨done, _, ⟨_, _, grown⟩, _⟩ ran
    obtain ⟨whole, bytes⟩ := grown.body rfl
    dsimp only at whole bytes ⊢
    obtain ⟨footprint, there, here | ⟨none, large⟩⟩ := footprint?_inWords whole
    · rw [here, there]
      exact Steps.pure trivial
    · rw [none]
      exact .inl ⟨_, _, rfl, LayoutError.overflows_overflow _, .whole (congrArg Prod.fst ran),
        bytes ▸ large⟩

end Structs

/-! ## Templates made anew -/

theorem steps_structBody {needed : Nat → Prop} (name : String) (span : Span) :
    Steps cache needed
      (fun body => schema.structFields? name = some body.1 ∧ name ∉ cache.underway)
      (structBody (wordSetting schema options) name span)
      (structBody (exactSetting schema options) name span) := by
  unfold structBody
  dsimp only
  cases declaration : schema.declaration? name with
  | none => exact Steps.throw nofun
  | some entry =>
    obtain ⟨key, kind, declared⟩ := entry
    cases kind with
    | enum repr variants => exact Steps.throw nofun
    | struct fields =>
      have read : Steps cache needed (· = cache) (get : EngineM Cache) get := .inr ⟨rfl, rfl, rfl⟩
      refine read.bind fun c same _ => ?_
      rw [same]
      split
      · exact Steps.throw nofun
      · rename_i new
        refine Steps.pure ⟨Schema.structFields?_eq_some.mpr ⟨key, declared, declaration⟩, ?_⟩
        simpa using new

/-- A template that is made anew in words only overflows for what its struct needs. -/
theorem steps_freshTemplate (ordered : schema.Ordered) (structs : Nat) (trail : List String)
    (name : String) (span : Span) :
    Steps ⟨[], trail⟩ (StructNeeds schema options structs trail name) (fun _ => True)
      (freshTemplate (wordSetting schema options) structs name span)
      (freshTemplate (exactSetting schema options) structs name span) := by
  induction structs generalizing trail name span with
  | zero =>
    unfold freshTemplate
    refine (steps_structBody name span).bind fun _ _ _ => Steps.throw fun overflows => ?_
    cases overflows
  | succ structs ih =>
    unfold freshTemplate
    apply (steps_structBody name span).bind
    rintro ⟨fields, declared⟩ ⟨known, new⟩ _
    refine Steps.whileUnderway name ?_
    exact (steps_layOutStruct ordered (finds_freshTemplate (wordSetting schema options) structs)
      (fun _ absent => absurd absent List.not_mem_nil) (ih (name :: trail)) known declared).allow
        fun n need => ⟨new, fields, known, need⟩

/-! ## Layouts -/

namespace Template.Realizes

variable {t : Template} {parts : List Part}

/-- In exact arithmetic a template realizes what it does in words. -/
theorem unbounded (h : t.Realizes .bits64 parts) : t.Realizes .unbounded parts :=
  ⟨h.slots_eq, h.slots_le, h.zones, Width.fits_unbounded _, h.bytes, h.empty⟩

/-- Every entry of a layout is the exact one. -/
theorem fieldOffsets_exact (h : t.Realizes .bits64 parts) :
    ∃ fields, t.fieldOffsets .bits64 = .ok fields ∧ t.fieldOffsets .unbounded = .ok fields := by
  have here := ensures_fieldOffsets h
  have there := ensures_fieldOffsets h.unbounded
  cases done : t.fieldOffsets .bits64 with
  | error e => exact (here.of_error done).elim
  | ok fields =>
    cases done' : t.fieldOffsets .unbounded with
    | error e => exact (there.of_error done').elim
    | ok fields' =>
      obtain ⟨size, entry⟩ := here.of_ok done
      obtain ⟨size', entry'⟩ := there.of_ok done'
      suffices fields = fields' by exact ⟨fields, rfl, congrArg _ this.symm⟩
      apply Array.ext_getElem?
      intro slot
      by_cases inside : slot < parts.length
      · obtain ⟨leaf, member, rfl⟩ := List.mem_map.mp
          (h.leaves_perm.mem_iff.mpr (List.mem_range.mpr inside))
        rw [entry leaf member, entry' leaf member]
      · rw [Array.getElem?_eq_none (by omega), Array.getElem?_eq_none (by omega)]

/-- Making a layout of a template only overflows for where the data of variable length begins. -/
theorem toLayout_inWords (h : t.Realizes .bits64 parts) :
    InWords .overflow (Width.words ≤ Layout.consumedSize ·) (t.toLayout .bits64)
      (t.toLayout .unbounded) := by
  obtain ⟨fields, here, there⟩ := h.fieldOffsets_exact
  unfold toLayout varStart?
  rw [bind_eq_of_ok here, bind_eq_of_ok there]
  dsimp only
  rw [h.counts.totalBytes]
  cases Alignment.descending.find? fun a => t.trailing.any (·.align == a) with
  | none => exact InWords.pure _
  | some largest =>
    have rounded (n : Nat) : InWords? (fun v => Width.words ≤ v.getD 0)
        ((largest.roundUp? .bits64 n).map some) ((largest.roundUp? .unbounded n).map some) :=
      (largest.roundUp?_inWords n).map some fun _ _ large => large
    refine (rounded _).orOverflow.bind (fun _ _ => InWords.pure _)
      fun v layout known large done => ?_
    cases done
    cases v with
    | none => exact absurd large (by decide)
    | some v => exact large

end Template.Realizes

namespace Layout

variable {layout : Layout} {parts : List Part} {leaves : List Leaf}

/-- No offset of an element wraps around. -/
theorem Realizes.elementOffset_exact (h : layout.Realizes .bits64 parts leaves) (slot : Nat)
    (indices : List Nat) :
    layout.elementOffset .bits64 slot indices = layout.elementOffset .unbounded slot indices := by
  unfold elementOffset
  cases known : layout.fields[slot]? with
  | none => rfl
  | some field =>
    dsimp only
    cases chain : layout.packChain? slot with
    | none => rfl
    | some ids =>
      show (ids.mapM layout.pack?).bind _ = (ids.mapM layout.pack?).bind _
      cases found : ids.mapM layout.pack? with
      | none => rfl
      | some packs =>
        show some ((elementDistance? packs indices).map _) =
          some ((elementDistance? packs indices).map _)
        cases distance : elementDistance? packs indices with
        | none => rfl
        | some n =>
          -- there is such an element, and it lies in the fixed part
          have slot_lt : slot < parts.length := h.size_eq ▸ (Array.getElem?_eq_some_iff.mp known).1
          obtain ⟨leaf, member, rfl, _⟩ := h.exists_leaf (List.getElem?_eq_getElem slot_lt)
          obtain rfl := Option.some.inj ((h.entry leaf member).symm.trans known)
          obtain rfl := Option.some.inj ((h.packChain? member).symm.trans chain)
          obtain ⟨packs', found', same⟩ := mapM_pack?_linked parts (h.linked leaf member)
          obtain rfl := Option.some.inj (found.symm.trans found')
          obtain ⟨n', distance', walk⟩ :=
            elementDistance?_of_lt (forall₂_of_elementDistance? distance)
          obtain rfl := Option.some.inj (distance.symm.trans distance')
          have begins : (Legend.of layout.packs 0 parts).Begins leaf indices (leaf.offset + n) :=
            ⟨n, same ▸ walk, rfl⟩
          have ends := (h.arranged.lies leaf member).inside indices _ begins
          have fits := h.fits.mono (Nat.le_trans (Nat.le_add_right _ _) ends)
          exact congrArg (fun x => some (some x)) fits.wrap

end Layout

/-! ## Roots -/

/-- Lays out a root struct of a schema in exact arithmetic. -/
def Schema.exactLayOut (schema : Schema) (root : String) (options : Options) :
    Except LayoutError Layout :=
  (Engine.layOut ⟨exactSetting schema options, .empty⟩ root).1

/-- Numbers of bytes that a root struct needs in exact arithmetic: those of the struct, and where
its data of variable length begins. -/
inductive RootNeeds (schema : Schema) (options : Options) (root : String) : Nat → Prop
  | struct {n : Nat} (needs : StructNeeds schema options schema.declarations.length [] root n) :
    RootNeeds schema options root n
  | consumed {layout : Layout} (laid : schema.exactLayOut root options = .ok layout) :
    RootNeeds schema options root layout.consumedSize

/-- Laying out a root in words gives the exact layout or error, or overflows for what it needs. -/
theorem layOut_matches (ordered : schema.Ordered) (root : String) (options : Options) :
    Matches (RootNeeds schema options root) (fun _ => True) (schema.layOut root options)
      (schema.exactLayOut root options) := by
  have laid : schema.layOut root options = _ :=
    Engine.layOut_fresh (wordSetting schema options) root
  have exact_ : schema.exactLayOut root options = _ :=
    Engine.layOut_fresh (exactSetting schema options) root
  have template (span : Span) := ((steps_freshTemplate ordered schema.declarations.length [] root
    span).ensuring (finds_freshTemplate (wordSetting schema options) _ root span)
      (fun _ absent => absurd absent List.not_mem_nil)).matches_
  rw [laid, exact_]
  refine ((template _).allow fun n => .struct).bind fun t ⟨_, sound, _⟩ made => ?_
  obtain ⟨shape, _, realizes⟩ := sound.shape
  refine ((realizes.toLayout_inWords.matches_located _).mono fun _ _ => trivial).allow ?_
  rintro _ ⟨layout, done, rfl⟩
  refine .consumed (exact_.trans ?_)
  dsimp only
  rw [made]
  exact congrArg (Except.mapError _) done

theorem Template.toLayout_eq_ok {w : Width} {t : Template} {layout : Layout}
    (done : t.toLayout w = .ok layout) :
    layout.zones = t.footprint ∧ layout.variants = t.variants := by
  rw [Template.of_toLayout done]
  exact ⟨rfl, rfl⟩

/-- A layout that is made in words is the exact one, and so is what is read off it: the bytes of
its zones, where they start, and the offset of every element. The zones of every variant are in
order, so none has a negative size. Where a size overflows, the exact layout needs a number of bytes
that is too large for a word, and any other error is the exact one. -/
theorem layOut_exact (schema : Schema) (ordered : schema.Ordered) (root : String)
    (options : Options) :
    (∀ layout, schema.layOut root options = .ok layout →
      schema.exactLayOut root options = .ok layout ∧
      layout.zones.totalBytes .bits64 = layout.zones.totalBytes .unbounded ∧
      (∀ a, layout.zones.bytes .bits64 a = layout.zones.bytes .unbounded a ∧
        layout.zones.zoneStart .bits64 a = layout.zones.zoneStart .unbounded a) ∧
      (∀ slot indices, layout.elementOffset .bits64 slot indices =
        layout.elementOffset .unbounded slot indices) ∧
      ∀ v ∈ layout.variants, v.target.Ascending ∧ v.layout.Ascending) ∧
    ∀ e, schema.layOut root options = .error e →
      (e.cause = .sizeOverflow → ∃ n, RootNeeds schema options root n ∧ Width.words ≤ n) ∧
      (e.cause ≠ .sizeOverflow → schema.exactLayOut root options = .error e) := by
  have run := layOut_matches ordered root options
  constructor
  · intro layout laid
    obtain ⟨t, span, made, done, sound, _⟩ := (layOut_spec schema root options).of_ok laid
    obtain ⟨shape, _, realizes⟩ := sound.shape
    obtain ⟨zones, variants⟩ := Template.toLayout_eq_ok done
    obtain ⟨realized, _⟩ := (Template.ensures_toLayout realizes).of_ok done
    have counts := realizes.counts
    rw [← zones] at counts
    refine ⟨?_, counts.totalBytes, fun a => ⟨counts.bytes a, counts.zoneStart a⟩,
      realized.elementOffset_exact, fun v member => ?_⟩
    · obtain ⟨e, n, failed, _⟩ | ⟨same, _⟩ := run
      · rw [laid] at failed
        contradiction
      · exact same.symm.trans laid
    · have resolved := (rootTemplate_resolved (wordSetting schema options) root).of_ok made
      exact (resolved v (variants ▸ member)).ascending
  · intro e failed
    obtain ⟨e', n, failed', overflows, need⟩ | ⟨same, holds⟩ := run
    · obtain rfl := Except.error.inj (failed.symm.trans failed')
      exact ⟨fun _ => ⟨n, need⟩, fun other => absurd overflows other⟩
    · have exact_ := same.symm.trans failed
      exact ⟨fun overflows => absurd overflows (holds.of_error exact_), fun _ => exact_⟩

/-- A schema with a struct of 45 bytes, and one of 2^64 and one more. -/
def tables : Schema where
  types := ⟨#[⟨.primitive .uint64, .dummy⟩, ⟨.primitive .uint8, .dummy⟩,
    ⟨.record [⟨"flag", ⟨1⟩, .dummy⟩, ⟨"key", ⟨0⟩, .dummy⟩], .dummy⟩,
    ⟨.array ⟨2⟩ (.fixed 5), .dummy⟩, ⟨.array ⟨0⟩ (.fixed 0x2000000000000000), .dummy⟩]⟩
  declarations := [⟨"Small", .struct [⟨"rows", ⟨3⟩, .dummy⟩], .dummy⟩,
    ⟨"Large", .struct [⟨"flag", ⟨1⟩, .dummy⟩, ⟨"keys", ⟨4⟩, .dummy⟩], .dummy⟩]

theorem layOut_exact_tables :
    (∃ layout, tables.layOut "Small" .default = .ok layout ∧
      tables.exactLayOut "Small" .default = .ok layout ∧
      layout.elementOffset .bits64 0 [4] = layout.elementOffset .unbounded 0 [4]) ∧
    tables.layOut "Large" .default = .error ⟨.sizeOverflow, .dummy⟩ ∧
      ∃ n, RootNeeds tables .default "Large" n ∧ Width.words ≤ n := by
  have ordered : tables.Ordered := by decide
  obtain ⟨layout, laid⟩ : ∃ layout, tables.layOut "Small" .default = .ok layout := ⟨_, by cbv⟩
  have failed : tables.layOut "Large" .default = .error ⟨.sizeOverflow, .dummy⟩ := by cbv
  obtain ⟨same, _, _, offsets, _⟩ := (layOut_exact tables ordered "Small" .default).1 layout laid
  exact ⟨⟨layout, laid, same, offsets 0 [4]⟩, failed,
    ((layOut_exact tables ordered "Large" .default).2 _ failed).1 rfl⟩

end PackedLayout
