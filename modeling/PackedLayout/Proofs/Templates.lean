import PackedLayout.Proofs.Walk

/-!
# Templates of structs

The template of a struct is sound: its zones realize the shape of the struct's fixed fields. The
cache holds sound templates only, whatever was laid out before and however it ended.

- `keeps_layOutStruct`: a struct whose fields are laid out gives a sound template;
- `keeps_template`: so does a struct that is looked up or laid out by name;
- `rootTemplate_spec`: a root struct has a sound template, or an error that the schema is to
  blame for.
-/

namespace PackedLayout

variable {setting : Setting} {struct : StructLayout}

theorem keeps_layOutNode (finds : Finds setting.schema setting.width struct) :
    Lays setting.schema setting.width (layOutNode setting struct) :=
  keeps_layOutType finds setting.maxDepth

/-- The element of a dynamic array is laid out on its own. -/
theorem keeps_elementFootprint (finds : Finds setting.schema setting.width struct)
    (element : TypeId) :
    Runs setting.schema setting.width (fun _ => True)
      (elementFootprint setting struct element) := by
  unfold elementFootprint
  apply (keeps_layOutNode finds element .empty (Nat.zero_le _)).bind
  intro draft _
  split
  · exact Keeps.pure trivial
  · exact Keeps.throw rfl

/-- The fields of a struct up to some place: the fixed ones are in the draft, and the others are
trailing. -/
def FieldsSofar (schema : Schema) (w : Width) (done : List Field)
    (sofar : Draft × List TrailingField) : Prop :=
  (∃ shapes, List.Forall₂ (HasShape schema)
    ((done.filter fun field => !schema.isTrailing field).map (·.type)) shapes ∧
      Draft.Grows w .empty sofar.1 (Shape.branches .field 0 shapes)) ∧
    sofar.2.reverse.map (·.name) = (done.filter schema.isTrailing).map (·.name)

theorem FieldsSofar.trailing {schema : Schema} {w : Width} {done : List Field} {draft : Draft}
    {trailing : List TrailingField} (h : FieldsSofar schema w done (draft, trailing))
    {field : Field} (last : schema.isTrailing field = true) {entry : TrailingField}
    (same : entry.name = field.name) (warnings : Array Warning) :
    FieldsSofar schema w (done ++ [field])
      ({ draft with warnings := warnings }, entry :: trailing) := by
  obtain ⟨⟨shapes, related, grown⟩, names⟩ := h
  refine ⟨⟨shapes, ?_, grown.slots_eq, grown.slots_le, grown.packs, grown.items⟩, ?_⟩
  · rw [List.filter_append, List.filter_singleton]
    simpa [last] using related
  · rw [List.reverse_cons, List.map_append, names, List.filter_append, List.filter_singleton]
    simp [last, same]

theorem FieldsSofar.fixed {schema : Schema} {w : Width} {done : List Field} {draft after : Draft}
    {trailing : List TrailingField} (h : FieldsSofar schema w done (draft, trailing))
    {field : Field} {shape : Shape} (fixed : schema.isTrailing field = false)
    (hasShape : HasShape schema field.type shape)
    (further : Draft.Grows w draft after shape.parts) :
    FieldsSofar schema w (done ++ [field]) (after, trailing) := by
  obtain ⟨⟨shapes, related, grown⟩, names⟩ := h
  refine ⟨⟨shapes ++ [shape], ?_, grown.branch further nofun⟩, ?_⟩
  · rw [List.filter_append, List.filter_singleton, List.map_append]
    simp only [fixed, Bool.not_false, cond_true, List.map_singleton]
    exact forall₂_concat related hasShape
  · rw [List.filter_append, List.filter_singleton]
    simpa [fixed] using names

theorem keeps_layOutField (finds : Finds setting.schema setting.width struct)
    {done : List Field} {sofar : Draft × List TrailingField} (field : Field)
    (h : FieldsSofar setting.schema setting.width done sofar) :
    Runs setting.schema setting.width
      (FieldsSofar setting.schema setting.width (done ++ [field]))
      (layOutField setting struct sofar field) := by
  obtain ⟨draft, trailing⟩ := sofar
  obtain ⟨run, step⟩ := setting.schema.exists_fieldStep field
  rw [step.layOutField_eq rfl]
  cases step with
  | string node =>
    refine Keeps.pure (h.trailing ?_ rfl draft.warnings)
    rw [Schema.isTrailing, node]
  | @dynamic element span node =>
    refine (keeps_elementFootprint finds element).bind fun ⟨footprint, warnings⟩ _ => ?_
    dsimp only
    split
    · exact Keeps.throw rfl
    · refine Keeps.pure (h.trailing ?_ rfl _)
      rw [Schema.isTrailing, node]
  | fixed notString notDynamic =>
    obtain ⟨⟨shapes, _, grown⟩, _⟩ := id h
    refine (keeps_layOutNode finds field.type draft grown.slots_le).bind
      fun after ⟨shape, hasShape, further⟩ => Keeps.pure (h.fixed ?_ hasShape further)
    exact Schema.isTrailing_eq_false.mpr ⟨notString, notDynamic⟩

/-- What was put into an empty draft is realized by a template of it. -/
theorem Draft.Grows.template {w : Width} {draft : Draft} {shapes : List Shape}
    (grown : Grows w .empty draft (Shape.branches .field 0 shapes)) {footprint : UnitCounts}
    (counted : footprint? w draft.container.zones = some footprint) (name : String)
    (trailing : List TrailingField) :
    Template.Realizes w ⟨name, draft.slots, draft.container.zones, footprint, draft.packs,
      draft.variants, trailing, draft.warnings⟩ (Shape.record shapes).parts := by
  obtain ⟨items, put, realizes⟩ := grown.items
  obtain ⟨zones, whole⟩ := realizes.body put
  obtain ⟨counts, bytes⟩ := footprint?_spec (fun a => (whole a).1) counted
  rw [Shape.parts]
  refine ⟨?_, grown.slots_le, zones, counts, bytes, fun a => (whole a).2⟩
  rw [grown.slots_eq]
  exact Nat.zero_add _

/-- A struct whose fields are laid out gives a sound template. -/
theorem keeps_layOutStruct (finds : Finds setting.schema setting.width struct) {name : String}
    {fields : List Field} (declared : setting.schema.structFields? name = some fields)
    (span : Span) :
    Runs setting.schema setting.width
      (fun t => t.Sound setting.schema setting.width ∧ t.name = name)
      (layOutStruct setting struct name fields span) := by
  unfold layOutStruct
  have start : FieldsSofar setting.schema setting.width [] (.empty, []) :=
    ⟨⟨[], .nil, Draft.grows_nil (Nat.zero_le _)⟩, rfl⟩
  refine (Keeps.foldlM (fun rest sofar => ∃ done, done ++ rest = fields ∧
    FieldsSofar setting.schema setting.width done sofar) (fun field rest sofar h => ?_)
    ⟨[], rfl, start⟩).bind fun ⟨draft, trailing⟩ h => ?_
  · obtain ⟨done, rfl, h⟩ := h
    exact (keeps_layOutField finds field h).mono fun after further =>
      ⟨done ++ [field], by simp, further⟩
  · obtain ⟨done, all, ⟨shapes, related, grown⟩, names⟩ := h
    rw [List.append_nil] at all
    subst all
    dsimp only
    cases counted : footprint? setting.width draft.container.zones with
    | none => exact Keeps.throw rfl
    | some footprint =>
      refine Keeps.pure ⟨⟨⟨.record shapes, ⟨done, shapes, declared, related, rfl⟩,
        grown.template counted name trailing.reverse⟩, fun fields known => ?_⟩, rfl⟩
      obtain rfl := Option.some.inj (declared.symm.trans known)
      exact names

theorem keeps_structBody {kept : Cache → Prop} (name : String) (span : Span) :
    Keeps kept External (fun body => setting.schema.structFields? name = some body.1)
      (structBody setting name span) := by
  unfold structBody
  split
  · exact Keeps.throw rfl
  · exact Keeps.throw rfl
  · rename_i key fields declared declaration
    apply Keeps.get.bind
    intro cache _
    split
    · exact Keeps.throw rfl
    · refine Keeps.pure ?_
      rw [Schema.structFields?, declaration]

theorem Cache.Sound.template? {schema : Schema} {w : Width} {cache : Cache} {name : String}
    {t : Template} (sound : cache.Sound schema w) (found : cache.template? name = some t) :
    t.Sound schema w ∧ t.name = name :=
  ⟨sound t (List.mem_of_find?_eq_some found), by simpa using List.find?_some found⟩

theorem Cache.Sound.insert {schema : Schema} {w : Width} {cache : Cache} {t : Template}
    (sound : cache.Sound schema w) (new : t.Sound schema w) :
    (Cache.insert t cache).Sound schema w := by
  intro other member
  obtain rfl | earlier := List.mem_cons.mp member
  · exact new
  · exact sound other earlier

/-- A struct that is looked up, or laid out with at most `depth` more structs underway, has a sound
template. -/
theorem keeps_template (setting : Setting) (depth : Nat) :
    Finds setting.schema setting.width (template setting depth) := by
  induction depth with
  | zero =>
    intro name span
    unfold template
    apply Keeps.get.bind
    intro cache sound
    split
    · rename_i t found
      exact Keeps.pure (sound.template? found)
    · exact (keeps_structBody name span).bind fun _ _ => Keeps.throw rfl
  | succ depth ih =>
    intro name span
    unfold template
    apply Keeps.get.bind
    intro cache sound
    split
    · rename_i t found
      exact Keeps.pure (sound.template? found)
    · refine (keeps_structBody name span).bind fun ⟨fields, declared⟩ known => ?_
      have laid := (keeps_layOutStruct ih known declared).whileUnderway name
        (fun _ good => good) (fun _ good => good)
      exact laid.bind fun t ⟨new, same⟩ =>
        (Keeps.modify fun _ good => good.insert new).bind fun _ _ => Keeps.pure ⟨new, same⟩

/-- The template of a root struct is sound, or the schema is to blame. -/
theorem rootTemplate_spec (setting : Setting) (root : String) :
    Ensures External
      (fun r => r.1.Sound setting.schema setting.width ∧ r.1.name = root)
      (Engine.rootTemplate setting root .empty).1 := by
  have runs : Runs setting.schema setting.width
      (fun r => r.1.Sound setting.schema setting.width ∧ r.1.name = root)
      (Engine.rootTemplate setting root) := by
    unfold Engine.rootTemplate
    exact (keeps_template setting _ root _).bind fun t found => Keeps.pure found
  exact (runs .empty fun _ absent => absurd absent List.not_mem_nil).2

end PackedLayout
