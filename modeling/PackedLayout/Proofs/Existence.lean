import PackedLayout.Proofs.Acceptance
import PackedLayout.Proofs.ExactRuns
import PackedLayout.Proofs.WordLayouts

/-!
# What is well-formed is laid out

In exact arithmetic a root struct that is well-formed is laid out: every check along the way is
passed, and there are slots for all leaves. In words it is laid out too, unless a size overflows.

- `Succeeds`: a run that ends well;
- `succeeds_layOutFields`, `succeeds_layOutArray`, `succeeds_layOutVariant`,
  `succeeds_layOutNamed`: one lemma for each form of a type;
- `succeeds_layOutType`, `succeeds_layOutStruct`: every formed type that has slots is laid out, and
  every struct that fits;
- `succeeds_freshTemplate`: so is a struct with all that it refers to;
- `layOut_accepts`: a root is laid out if and only if it is well-formed.
-/

namespace PackedLayout

/-- A run in an engine that ends well. -/
abbrev Succeeds {α : Type} (kept : Cache → Prop) (value : α → Prop) (act : EngineM α) : Prop :=
  Keeps kept (fun _ => False) value act

variable {schema : Schema} {options : Options} {struct : StructLayout} {span : Span}
  {layOut : TypeLayout} {draft : Draft} {kept : Cache → Prop} {id : TypeId} {name : String}

theorem Succeeds.lift {α : Type} {run : Except LayoutError α} (h : ∃ a, run = .ok a) :
    Succeeds kept (fun a => run = .ok a) (liftM run : EngineM α) := by
  obtain ⟨a, done⟩ := h
  rw [done]
  exact fun _ good => ⟨good, rfl⟩

/-- A type is put into any draft that has slots for its leaves. -/
def LaysOut (schema : Schema) (kept : Cache → Prop) (layOut : TypeLayout) (id : TypeId) : Prop :=
  ∀ shape draft, HasShape schema id shape → draft.slots + shape.parts.length ≤ maxSlots →
    Succeeds kept (fun after => after.slots = draft.slots + shape.parts.length) (layOut id draft)

/-- A type takes as many slots as it has leaves. -/
theorem LaysOut.of_succeeds (lays : Lays schema .unbounded layOut)
    (sound : ∀ cache, kept cache → cache.Sound schema .unbounded)
    (succeeds : ∀ shape draft, HasShape schema id shape →
      draft.slots + shape.parts.length ≤ maxSlots →
        Succeeds kept (fun _ => True) (layOut id draft)) : LaysOut schema kept layOut id := by
  intro shape draft hasShape room
  have le : draft.slots ≤ maxSlots := Nat.le_trans (Nat.le_add_right _ _) room
  refine ((succeeds shape draft hasShape room).ensuring (lays id draft le) sound).mono
    fun after ⟨_, shape', hasShape', grown⟩ => ?_
  rw [hasShape_unique hasShape shape' hasShape']
  exact grown.slots_eq

/-! ## Forms of types -/

theorem succeeds_layOutFields {fields : List Field} {shapes : List Shape}
    (related : List.Forall₂ (HasShape schema) (fields.map (·.type)) shapes)
    (room : draft.slots + Shape.leafCount shapes ≤ maxSlots)
    (inside : ∀ field ∈ fields, LaysOut schema kept layOut field.type) :
    Succeeds kept (fun _ => True) (layOutFields layOut fields draft) := by
  unfold layOutFields
  induction fields generalizing shapes draft with
  | nil => exact Keeps.pure trivial
  | cons field rest ih =>
    cases related with
    | cons first others =>
      rw [Shape.leafCount] at room
      rw [List.foldlM_cons]
      refine (inside field List.mem_cons_self _ draft first (by omega)).bind fun next slots => ?_
      exact ih others (by omega) fun other later => inside other (List.mem_cons_of_mem _ later)

theorem succeeds_layOutArray {element : TypeId} {length : Nat} {shape : Shape}
    (hasShape : HasShape schema element shape)
    (room : draft.slots + shape.parts.length ≤ maxSlots)
    (inside : LaysOut schema kept layOut element) :
    Succeeds kept (fun _ => True) (layOutArray .unbounded span layOut element length draft) := by
  unfold layOutArray
  dsimp only [Draft.exchange]
  refine (inside shape { draft with container := .emptyBody } hasShape room).bind fun inner _ => ?_
  exact (Succeeds.lift (Draft.exists_putArray _ _)).mono fun _ _ => trivial

theorem succeeds_collectArms {ids : List TypeId} {shapes : List Shape} (index : Nat)
    (collected : List Arm) (related : List.Forall₂ (HasShape schema) ids shapes)
    (room : draft.slots + Shape.leafCount shapes ≤ maxSlots)
    (inside : ∀ id ∈ ids, LaysOut schema kept layOut id) :
    Succeeds kept (fun _ => True)
      (collectArms .unbounded span layOut index collected ids draft) := by
  induction ids generalizing shapes index collected draft with
  | nil => exact Keeps.pure trivial
  | cons id rest ih =>
    cases related with
    | cons first others =>
      rw [Shape.leafCount] at room
      unfold collectArms
      refine (inside id List.mem_cons_self _ draft first (by omega)).bind fun next slots => ?_
      dsimp only [Draft.exchange]
      obtain ⟨arm, made⟩ := Arm.exists_of? index next.container.items
      rw [made]
      refine ih _ _ others ?_ fun other later => inside other (List.mem_cons_of_mem _ later)
      dsimp only
      omega

theorem succeeds_layOutVariant (imperfect : options.requirePerfect = false) {arms : List TypeId}
    {shapes : List Shape} (related : List.Forall₂ (HasShape schema) arms shapes)
    (room : draft.slots + (1 + Shape.leafCount shapes) ≤ maxSlots)
    (inside : ∀ id ∈ arms, LaysOut schema kept layOut id) :
    Succeeds kept (fun _ => True) (layOutVariant .unbounded options span layOut arms draft) := by
  unfold layOutVariant
  dsimp only [Draft.exchange]
  refine (Succeeds.lift (Draft.exists_putLeaf _ _ (by omega))).bind fun tagged done => ?_
  have slots := ((ensures_putTag arms.length).of_ok done).slots_eq
  rw [List.length_singleton] at slots
  have filled : ({ tagged with container := .arm [] } : Draft).slots + Shape.leafCount shapes ≤
      maxSlots := by
    dsimp only
    omega
  refine (succeeds_collectArms 0 [] related filled inside).bind fun ⟨collected, next⟩ _ => ?_
  obtain ⟨r, resolved⟩ := Resolution.exists_ofArms options.maxSearchBytes collected
  dsimp only
  rw [resolved]
  refine (Succeeds.lift ⟨r, rfl⟩).bind fun r _ => ?_
  exact (Succeeds.lift (Draft.exists_putVariant imperfect _ _ _)).mono fun _ _ => trivial

/-- What is laid out for the fields of a struct is formed, there are slots for its fixed fields, and
its dynamic elements take up space. -/
def Schema.StructFits (schema : Schema) (name : String) : Prop :=
  ∃ fields shapes, schema.structFields? name = some fields ∧
    (∀ field ∈ fields, schema.FieldAccepted schema.TypeFormed field ∧ schema.FieldSpaced field) ∧
    List.Forall₂ (HasShape schema)
      ((fields.filter fun field => !schema.isTrailing field).map (·.type)) shapes ∧
    Shape.leafCount shapes ≤ maxSlots

/-- The structs that a type mentions are found, if they fit. -/
def FindsFitting (schema : Schema) (kept : Cache → Prop) (struct : StructLayout) (id : TypeId) :
    Prop :=
  ∀ name, Mentions schema id name → schema.StructFits name →
    ∀ span, Succeeds kept (fun _ => True) (struct name span)

/-- No field of a struct is trailing whose fields all have formed types. -/
theorem filter_isTrailing {fields : List Field}
    (formed : ∀ field ∈ fields, schema.TypeFormed field.type) :
    fields.filter schema.isTrailing = [] ∧
      fields.filter (fun field => !schema.isTrailing field) = fields := by
  have fixed (field : Field) (member : field ∈ fields) : schema.isTrailing field = false :=
    (formed field member).plain.2
  exact ⟨List.filter_eq_nil_iff.mpr fun field member => by simp [fixed field member],
    List.filter_eq_self.mpr fun field member => by simp [fixed field member]⟩

/-- A struct of formed types fits if there are slots for all of its leaves. -/
theorem structFits_of_formed {fields : List Field} {shapes : List Shape}
    (declared : schema.structFields? name = some fields)
    (formed : ∀ field ∈ fields, schema.TypeFormed field.type)
    (related : List.Forall₂ (HasShape schema) (fields.map (·.type)) shapes)
    (room : Shape.leafCount shapes ≤ maxSlots) : schema.StructFits name := by
  refine ⟨fields, shapes, declared, fun field member => ⟨fun _ => ?_, fun _ _ dynamic => ?_⟩,
    (filter_isTrailing formed).2.symm ▸ related, room⟩
  · rw [(formed field member).plain.1]
    exact formed field member
  · exact ((formed field member).node dynamic).elim

/-- The template of a struct of formed types has no trailing fields. -/
theorem Template.Sound.trailing_eq_nil {w : Width} {t : Template} {fields : List Field}
    (sound : t.Sound schema w) (declared : schema.structFields? t.name = some fields)
    (formed : ∀ field ∈ fields, schema.TypeFormed field.type) : t.trailing = [] := by
  have names := sound.trailing fields declared
  rw [(filter_isTrailing formed).1] at names
  exact List.map_eq_nil_iff.mp names

theorem succeeds_layOutNamed {shape : Shape}
    (finds : Finds schema .unbounded struct)
    (sound : ∀ cache, kept cache → cache.Sound schema .unbounded)
    (node : schema.type? id = some ⟨.named name, span⟩) (hasShape : HasShape schema id shape)
    (formed : schema.TypeFormed id) (room : draft.slots + shape.parts.length ≤ maxSlots)
    (found : schema.StructFits name → ∀ span, Succeeds kept (fun _ => True) (struct name span)) :
    Succeeds kept (fun _ => True)
      (layOutNamed (exactSetting schema options) span struct name draft) := by
  obtain ⟨d, declared, own⟩ := formed.node node
  obtain ⟨run, step⟩ := schema.exists_nameStep name
  rw [step.layOutNamed_eq rfl]
  cases step with
  | unknown declaration => cases declaration.symm.trans declared
  | badEnum declaration notInteger =>
    cases declaration.symm.trans declared
    exact absurd own (Bool.eq_false_iff.mp notInteger)
  | enum declaration =>
    have slots : draft.slots < maxSlots := by
      have only := hasShape_unique hasShape _ (.enum node declaration)
      rw [only, Shape.parts, List.length_singleton] at room
      omega
    exact (Succeeds.lift (Draft.exists_putLeaf _ _ slots)).mono fun _ _ => trivial
  | @struct _ fields _ declaration =>
    have fields_eq : schema.structFields? name = some fields :=
      Schema.structFields?_eq_some.mpr ⟨_, _, declaration⟩
    have each (field : Field) (member : field ∈ fields) : schema.TypeFormed field.type :=
      formed.uses (.field node fields_eq member)
    obtain ⟨shapes, related, rfl⟩ := hasShape.exists_of_struct node declaration
    rw [Shape.length_parts_record] at room
    have fits := structFits_of_formed fields_eq each related (by omega)
    apply ((found fits span).ensuring (finds name span) sound).bind
    rintro t ⟨_, known, same⟩
    have fixed := known.trailing_eq_nil (same ▸ fields_eq) each
    obtain ⟨shapes', related', realizes⟩ := known.record fixed (same ▸ declaration)
    rw [← forall₂_hasShape_unique related related'] at realizes
    have slots : draft.slots + t.slots ≤ maxSlots := by
      rw [realizes.slots_eq, Shape.length_parts_record]
      exact room
    rw [if_pos (List.isEmpty_iff.mpr fixed)]
    exact (Succeeds.lift (Draft.exists_embed slots)).mono fun _ _ => trivial

/-! ## All types -/

theorem Schema.Refuses.not_formed {e : LayoutError} (refuses : schema.Refuses id e) :
    ¬schema.TypeFormed id := by
  intro formed
  cases refuses with
  | unknown none =>
    obtain ⟨form, span, node, _⟩ := formed id .refl
    cases none.symm.trans node
  | string node | dynamicArray node => exact formed.node node
  | emptyString node | emptyArray node => exact absurd (formed.node node) (Nat.lt_irrefl 0)
  | packedVariant node | dynamicVariant node => exact absurd (formed.node node).1 nofun
  | tooFewArms node few => exact absurd (formed.node node).2.1 (Nat.not_le.mpr few)
  | tooManyArms node many => exact absurd (formed.node node).2.2 (Nat.not_le.mpr many)

/-- A formed type is laid out if there are slots for its leaves, and the structs that it mentions
are. -/
theorem succeeds_layOutType (ordered : schema.Ordered) (imperfect : options.requirePerfect = false)
    (finds : Finds schema .unbounded struct)
    (sound : ∀ cache, kept cache → cache.Sound schema .unbounded) {depth : Nat}
    (deep : id.raw < depth) (formed : schema.TypeFormed id)
    (found : FindsFitting schema kept struct id) :
    LaysOut schema kept (layOutType (exactSetting schema options) struct depth) id := by
  induction depth generalizing id with
  | zero => exact absurd deep (Nat.not_lt_zero _)
  | succ depth ih =>
    refine LaysOut.of_succeeds (@keeps_layOutType (exactSetting schema options) struct finds _)
      sound fun shape draft hasShape room => ?_
    have inside {form : TypeForm} {span : Span} (node : schema.type? id = some ⟨form, span⟩)
        (part : TypeId) (member : part ∈ form.inner) :
        LaysOut schema kept (layOutType (exactSetting schema options) struct depth) part := by
      have earlier := ordered.earlier id form span node part (TypeForm.mem_parts member)
      exact ih (by omega) (formed.inner node member) fun name mentions =>
        found name (.inner node member mentions)
    obtain ⟨run, step⟩ := schema.exists_typeStep id
    rw [layOutType_succ, step.layOutForm_eq rfl]
    cases step with
    | refused refuses => exact absurd formed refuses.not_formed
    | primitive node =>
      rw [hasShape_unique hasShape _ (.primitive node), Shape.parts, List.length_singleton] at room
      exact (Succeeds.lift (Draft.exists_putLeaf _ _ (by omega))).mono fun _ _ => trivial
    | string node =>
      rw [hasShape_unique hasShape _ (.string node), Shape.parts, List.length_singleton] at room
      exact (Succeeds.lift (Draft.exists_putLeaf _ _ (by omega))).mono fun _ _ => trivial
    | array node =>
      obtain ⟨inner, related, rfl⟩ := hasShape.exists_of_array node
      rw [Shape.length_parts_array] at room
      exact succeeds_layOutArray related room (inside node _ List.mem_cons_self)
    | variant node =>
      obtain ⟨shapes, related, rfl⟩ := hasShape.exists_of_variant node
      rw [Shape.length_parts_variant] at room
      exact succeeds_layOutVariant imperfect related room (inside node)
    | record node =>
      obtain ⟨shapes, related, rfl⟩ := hasShape.exists_of_record node
      rw [Shape.length_parts_record] at room
      exact succeeds_layOutFields related room fun field member =>
        inside node field.type (List.mem_map_of_mem member)
    | named node =>
      exact succeeds_layOutNamed finds sound node hasShape formed room (found _ (.named node))

/-! ## Structs -/

section Structs

variable (ordered : schema.Ordered) (imperfect : options.requirePerfect = false)
  (finds : Finds schema .unbounded struct)
  (quiet : ∀ name span, Ends schema .unbounded (Template.Quiet .unbounded) (struct name span))
  (sound : ∀ cache, kept cache → cache.Sound schema .unbounded)

include ordered imperfect finds sound

theorem succeeds_layOutNode (formed : schema.TypeFormed id)
    (found : FindsFitting schema kept struct id) :
    LaysOut schema kept (layOutNode (exactSetting schema options) struct) id := by
  obtain ⟨form, span, node, _⟩ := formed id .refl
  exact succeeds_layOutType ordered imperfect finds sound (Setting.raw_lt_maxDepth node) formed
    found

include quiet

theorem succeeds_elementFootprint {element : TypeId} (formed : schema.TypeFormed element)
    (spaced : schema.ElementFormed element)
    (found : FindsFitting schema kept struct element) :
    Succeeds kept (fun r => r.1.largest? ≠ none)
      (elementFootprint (exactSetting schema options) struct element) := by
  obtain ⟨shape, hasShape, le, leaf⟩ := spaced
  have room : Draft.empty.slots + shape.parts.length ≤ maxSlots :=
    Nat.le_trans (Nat.le_of_eq (Nat.zero_add _)) le
  have succeeds : Succeeds kept (fun _ => True)
      (elementFootprint (exactSetting schema options) struct element) := by
    unfold elementFootprint
    refine (succeeds_layOutNode ordered imperfect finds sound formed found shape .empty hasShape
      room).bind fun draft _ => ?_
    obtain ⟨footprint, counted⟩ := exists_footprint? draft.container.zones
    rw [counted]
    exact Keeps.pure trivial
  refine (succeeds.ensuring (@keeps_elementFootprint_space (exactSetting schema options) struct
    finds quiet element) sound).mono fun r ⟨_, shape', hasShape', _, leafless⟩ none => leaf ?_
  rw [hasShape_unique hasShape shape' hasShape']
  exact leafless.mp none

variable {field : Field} {sofar : Draft × List TrailingField}

/-- A trailing field takes no slots. -/
theorem succeeds_layOutField_trailing (trailing : schema.isTrailing field = true)
    (formed : schema.FieldAccepted schema.TypeFormed field) (spaced : schema.FieldSpaced field)
    (found : FindsFitting schema kept struct (schema.laidOut field)) :
    Succeeds kept (fun next => next.1.slots = sofar.1.slots)
      (layOutField (exactSetting schema options) struct sofar field) := by
  obtain ⟨run, step⟩ := schema.exists_fieldStep field
  rw [step.layOutField_eq rfl]
  cases step with
  | string => exact Keeps.pure rfl
  | @dynamic element span node =>
    rw [Schema.laidOut_eq_element node] at found
    refine (succeeds_elementFootprint ordered imperfect finds quiet sound (formed.element node)
      (spaced element span node) found).bind fun ⟨footprint, warnings⟩ space => ?_
    dsimp only at space ⊢
    split
    · rename_i none
      exact absurd none space
    · exact Keeps.pure rfl
  | fixed notString notDynamic =>
    rw [Schema.isTrailing_eq_false.mpr ⟨notString, notDynamic⟩] at trailing
    contradiction

omit quiet in
/-- Any other field takes as many slots as its type has leaves. -/
theorem succeeds_layOutField_fixed {shape : Shape} (fixed : schema.isTrailing field = false)
    (formed : schema.FieldAccepted schema.TypeFormed field)
    (hasShape : HasShape schema field.type shape)
    (room : sofar.1.slots + shape.parts.length ≤ maxSlots)
    (found : FindsFitting schema kept struct (schema.laidOut field)) :
    Succeeds kept (fun next => next.1.slots = sofar.1.slots + shape.parts.length)
      (layOutField (exactSetting schema options) struct sofar field) := by
  obtain ⟨notString, notDynamic⟩ := Schema.isTrailing_eq_false.mp fixed
  rw [Schema.laidOut_eq_type notDynamic] at found
  rw [(Schema.FieldStep.fixed notString notDynamic).layOutField_eq rfl]
  exact (succeeds_layOutNode ordered imperfect finds sound (formed.type fixed) found shape
    sofar.1 hasShape room).bind fun _ slots => Keeps.pure slots

/-- The fields of a struct are laid out if its fixed fields have slots. -/
theorem succeeds_structFields {fields : List Field} {shapes : List Shape}
    (accepted : ∀ field ∈ fields,
      schema.FieldAccepted schema.TypeFormed field ∧ schema.FieldSpaced field)
    (related : List.Forall₂ (HasShape schema)
      ((fields.filter fun field => !schema.isTrailing field).map (·.type)) shapes)
    (room : sofar.1.slots + Shape.leafCount shapes ≤ maxSlots)
    (found : ∀ field ∈ fields, FindsFitting schema kept struct (schema.laidOut field)) :
    Succeeds kept (fun _ => True)
      (fields.foldlM (layOutField (exactSetting schema options) struct) sofar) := by
  induction fields generalizing shapes sofar with
  | nil => exact Keeps.pure trivial
  | cons field rest ih =>
    obtain ⟨⟨formed, spaced⟩, accepted⟩ := List.forall_mem_cons.mp accepted
    obtain ⟨mentioned, found⟩ := List.forall_mem_cons.mp found
    rw [List.foldlM_cons]
    cases kind : schema.isTrailing field with
    | true =>
      rw [List.filter_cons_of_neg (by simp [kind])] at related
      refine (succeeds_layOutField_trailing ordered imperfect finds quiet sound kind formed spaced
        mentioned).bind fun next slots => ?_
      exact ih accepted related (slots ▸ room) found
    | false =>
      rw [List.filter_cons_of_pos (by simp [kind]), List.map_cons] at related
      cases related with
      | cons first others =>
        rw [Shape.leafCount, ← Nat.add_assoc] at room
        refine (succeeds_layOutField_fixed ordered imperfect finds sound kind formed first
          (Nat.le_trans (Nat.le_add_right _ _) room) mentioned).bind fun next slots => ?_
        exact ih accepted others (slots ▸ room) found

/-- A struct that fits is laid out, if the structs are that it refers to and fit. -/
theorem succeeds_layOutStruct {fields : List Field} (fits : schema.StructFits name)
    (declared : schema.structFields? name = some fields) (span : Span)
    (found : ∀ other, Refers schema name other → schema.StructFits other →
      ∀ span, Succeeds kept (fun _ => True) (struct other span)) :
    Succeeds kept (fun _ => True)
      (layOutStruct (exactSetting schema options) struct name fields span) := by
  obtain ⟨fields', shapes, declared', accepted, related, room⟩ := fits
  cases declared.symm.trans declared'
  have mentioned : ∀ field ∈ fields,
      FindsFitting schema kept struct (schema.laidOut field) := by
    intro field member other mentions fits
    obtain ⟨own, _, known, _⟩ := id fits
    exact found other ⟨fields, field, declared, member, mentions, own, known⟩ fits
  unfold layOutStruct
  refine (succeeds_structFields ordered imperfect finds quiet sound accepted related
    ((Nat.zero_add _).trans_le room) mentioned).bind fun ⟨draft, trailing⟩ _ => ?_
  obtain ⟨footprint, counted⟩ := exists_footprint? draft.container.zones
  dsimp only
  rw [counted]
  exact Keeps.pure trivial

end Structs

/-! ## Templates made anew -/

/-- A struct that is not underway may be laid out. -/
theorem succeeds_structBody {setting : Setting} {fields : List Field}
    (declared : setting.schema.structFields? name = some fields)
    (free : ∀ cache, kept cache → name ∉ cache.underway) (span : Span) :
    Succeeds kept (fun body => body.1 = fields) (structBody setting name span) := by
  obtain ⟨key, place, declaration⟩ := Schema.structFields?_eq_some.mp declared
  unfold structBody
  rw [declaration]
  refine Keeps.get.bind fun cache here => ?_
  rw [if_neg (by simpa using free cache here)]
  exact Keeps.pure rfl

/-- A struct that fits is made anew where the structs underway lead to it, if it reaches no
cycle. -/
theorem succeeds_freshTemplate (ordered : schema.Ordered)
    (imperfect : options.requirePerfect = false) {structs : Nat} {trail : List String}
    (room : Trail schema structs trail) (acyclic : Acyclic schema name)
    (leads : LeadsTo schema trail name) (fits : schema.StructFits name) (span : Span) :
    Succeeds (fun cache => cache.Sound schema .unbounded ∧ cache.underway = trail) (fun _ => True)
      (freshTemplate (exactSetting schema options) structs name span) := by
  induction structs generalizing trail name span with
  | zero =>
    obtain ⟨fields, _, declared, _⟩ := fits
    exact absurd (room.depth_pos (leads.apart acyclic name .refl) ⟨fields, declared⟩)
      (Nat.lt_irrefl 0)
  | succ structs ih =>
    obtain ⟨fields, _, declared, _⟩ := id fits
    have new : name ∉ trail := leads.apart acyclic name .refl
    have room := room.enter new ⟨fields, declared⟩
    unfold freshTemplate
    apply (succeeds_structBody declared (fun cache here => here.2 ▸ new) span).bind
    rintro ⟨fields', place⟩ same
    obtain rfl : fields' = fields := same
    have inner := succeeds_layOutStruct ordered imperfect
      (finds_freshTemplate (exactSetting schema options) structs)
      (keeps_freshTemplate_quiet (exactSetting schema options) structs)
      (fun cache (here : cache.Sound schema .unbounded ∧ cache.underway = name :: trail) => here.1)
      fits declared place
      fun other refers fits span =>
        ih room (acyclic.refers refers) (leads.enter refers) fits span
    exact inner.whileUnderway name (fun _ here => ⟨here.1, congrArg (name :: ·) here.2⟩)
      fun _ here => ⟨here.1, congrArg List.tail here.2⟩

/-! ## Roots -/

/-- In exact arithmetic a layout is made of every template. -/
theorem Template.Realizes.exists_toLayout {t : Template} {parts : List Part}
    (h : t.Realizes .unbounded parts) : ∃ layout, t.toLayout .unbounded = .ok layout := by
  unfold Template.toLayout
  cases written : t.fieldOffsets .unbounded with
  | error e => exact ((Template.ensures_fieldOffsets h).of_error written).elim
  | ok fields =>
    rw [bind_eq_of_ok rfl]
    unfold Template.varStart?
    split
    · exact ⟨_, rfl⟩
    · exact ⟨_, rfl⟩

theorem Schema.WellFormed.structFits {root : String} (h : schema.WellFormed root)
    (ordered : schema.Ordered) : schema.StructFits root := by
  obtain ⟨shape, rootShape⟩ := h.exists_rootShape ordered
  have le := h.slots shape rootShape
  obtain ⟨fields, shapes, declared, related, rfl⟩ := rootShape
  rw [Shape.length_parts_record] at le
  refine ⟨fields, shapes, declared, fun field member =>
    ⟨h.types fields declared field member, fun element span node => ?_⟩, related, le⟩
  obtain ⟨shape, hasShape⟩ := h.exists_hasShape ordered declared member
    fun _ => Schema.not_string_of_dynamic node
  rw [Schema.laidOut_eq_element node] at hasShape
  obtain ⟨⟨part, listed, _⟩, le⟩ :=
    h.elements element ⟨fields, field, span, declared, member, node⟩ shape hasShape
  exact ⟨shape, hasShape, le, List.ne_nil_of_mem listed⟩

/-- In exact arithmetic a well-formed root is laid out. -/
theorem Schema.WellFormed.exists_exactLayOut {root : String} (h : schema.WellFormed root)
    (ordered : schema.Ordered) (imperfect : options.requirePerfect = false) :
    ∃ layout, schema.exactLayOut root options = .ok layout := by
  have laid : schema.exactLayOut root options = _ :=
    Engine.layOut_fresh (exactSetting schema options) root
  rw [laid]
  dsimp only
  generalize (schema.declaration? root).elim .dummy (·.span) = span
  have start : Cache.Sound schema .unbounded ⟨[], []⟩ := nofun
  have succeeds := (succeeds_freshTemplate ordered imperfect (trail_nil schema) h.acyclic nofun
    (h.structFits ordered) span ⟨[], []⟩ ⟨start, rfl⟩).2
  cases made : (freshTemplate (exactSetting schema options) schema.declarations.length root span
      ⟨[], []⟩).1 with
  | error e => exact (succeeds.of_error made).elim
  | ok t =>
    obtain ⟨sound, _⟩ := (finds_freshTemplate (exactSetting schema options) _ root span _
      start).2.of_ok made
    obtain ⟨shape, _, realizes⟩ := sound.shape
    obtain ⟨layout, done⟩ := realizes.exists_toLayout
    exact ⟨layout, congrArg (Except.mapError _) done⟩

/-- Only a well-formed root is laid out, whatever the width of a word. -/
theorem wellFormed_of_layOut {setting : Setting} {root : String} {layout : Layout}
    (laid : (Engine.layOut ⟨setting, .empty⟩ root).1 = .ok layout) :
    setting.schema.WellFormed root := by
  rw [Engine.layOut_fresh] at laid
  dsimp only at laid
  generalize (setting.schema.declaration? root).elim .dummy (·.span) = span at laid
  cases made : (freshTemplate setting setting.schema.declarations.length root span ⟨[], []⟩).1 with
  | error e =>
    rw [made] at laid
    contradiction
  | ok t => exact wellFormed_of_freshTemplate made

/-- In exact arithmetic a root is laid out if and only if it is well-formed. In words, a root that
is well-formed is laid out or a size overflows, and any other root is an error. -/
theorem layOut_accepts (schema : Schema) (ordered : schema.Ordered) (root : String)
    (options : Options) (imperfect : options.requirePerfect = false) :
    (schema.WellFormed root ↔ ∃ layout, schema.exactLayOut root options = .ok layout) ∧
    (schema.WellFormed root → (∃ layout, schema.layOut root options = .ok layout) ∨
      ∃ span, schema.layOut root options = .error ⟨.sizeOverflow, span⟩) ∧
    ((∃ layout, schema.layOut root options = .ok layout) → schema.WellFormed root) := by
  have exactly (h : schema.WellFormed root) := h.exists_exactLayOut ordered imperfect
  refine ⟨⟨exactly, fun ⟨_, laid⟩ => wellFormed_of_layOut laid⟩, fun h => ?_,
    fun ⟨_, laid⟩ => wellFormed_of_layOut laid⟩
  obtain ⟨layout, laid⟩ := exactly h
  obtain ⟨⟨cause, span⟩, _, failed, overflows, _⟩ | ⟨same, _⟩ := layOut_matches ordered root options
  · obtain rfl : cause = .sizeOverflow := overflows
    exact .inr ⟨span, failed⟩
  · exact .inl ⟨layout, same.trans laid⟩

/-- A struct that is too large for a word is well-formed all the same, and so is one beside a cycle,
but none on it. -/
theorem layOut_accepts_samples :
    (tables.WellFormed "Large" ∧
      tables.layOut "Large" .default = .error ⟨.sizeOverflow, .dummy⟩) ∧
    (rings.WellFormed "Apart" ∧ ∃ layout, rings.exactLayOut "Apart" .default = .ok layout) ∧
      ¬rings.WellFormed "Back" := by
  have large := layOut_accepts tables (by decide) "Large" .default rfl
  have apart := layOut_accepts rings (by decide) "Apart" .default rfl
  have back := layOut_accepts rings (by decide) "Back" .default rfl
  have wellFormed : rings.WellFormed "Apart" := apart.2.2 ⟨_, by cbv⟩
  refine ⟨⟨large.1.mpr ⟨_, by cbv⟩, by cbv⟩, ⟨wellFormed, apart.1.mp wellFormed⟩, fun h => ?_⟩
  obtain ⟨layout, laid⟩ := back.1.mp h
  obtain ⟨e, failed⟩ : ∃ e, rings.exactLayOut "Back" .default = .error e := ⟨_, by cbv⟩
  rw [failed] at laid
  contradiction

end PackedLayout
