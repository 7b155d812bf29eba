import PackedLayout.Proofs.Footprints
import PackedLayout.Proofs.WellFormed

/-!
# What is laid out is well-formed

A root struct that is laid out is well-formed: the run went through everything that it leads to.

- `closed_typeFormed`: a type is formed if its node is, and the types are that it uses;
- `keeps_freshTemplate_accepts`: what is laid out for the fields of a struct is formed, and its
  dynamic elements take up space;
- `wellFormed_of_freshTemplate`: so a root that is laid out is well-formed.
-/

namespace PackedLayout

open Relation

variable {schema : Schema} {setting : Setting} {struct : StructLayout} {name : String}
  {fields : List Field} {field : Field} {span : Span} {t : Template}

/-- The types of the fields are formed, if no field is trailing. -/
def FieldsFormed (schema : Schema) (name : String) (t : Template) : Prop :=
  t.trailing = [] → ∀ fields, schema.structFields? name = some fields →
    ∀ field ∈ fields, schema.TypeFormed field.type

theorem closed_typeFormed (schema : Schema) :
    Closed schema (FieldsFormed schema) schema.TypeFormed := by
  intro id form span known formed inside named part leads
  obtain rfl | ⟨next, uses, leads⟩ := leads.cases_head
  · exact ⟨form, span, known, formed⟩
  · cases uses with
    | inner again member =>
      cases known.symm.trans again
      exact inside next member part leads
    | field again declared member =>
      cases known.symm.trans again
      obtain ⟨t, all, fixed⟩ := named _ rfl ⟨_, declared⟩
      exact all fixed _ declared _ member part leads

/-- A struct without trailing fields has formed types. -/
theorem Template.Sound.fieldsFormed {w : Width} (sound : t.Sound schema w) (same : t.name = name)
    (declared : schema.structFields? name = some fields)
    (accepted : ∀ field ∈ fields, schema.FieldAccepted schema.TypeFormed field) :
    FieldsFormed schema name t := by
  intro fixed fields' declared' field member
  cases declared.symm.trans declared'
  have names := sound.trailing fields (same ▸ declared)
  rw [fixed] at names
  have none := List.filter_eq_nil_iff.mp (List.map_eq_nil_iff.mp names.symm) field member
  exact (accepted field member).type (by simpa using none)

/-- An element takes up space, and has not too many slots. -/
def Schema.ElementFormed (schema : Schema) (element : TypeId) : Prop :=
  ∃ shape, HasShape schema element shape ∧ shape.parts.length ≤ maxSlots ∧ shape.parts ≠ []

/-- The element of the field is formed, if the field is a dynamic array. -/
def Schema.FieldSpaced (schema : Schema) (field : Field) : Prop :=
  ∀ element span, schema.type? field.type = some ⟨.array element .dynamic, span⟩ →
    schema.ElementFormed element

theorem keeps_layOutField_spaced (finds : Finds setting.schema setting.width struct)
    (found : FindsQuiet setting struct) (sofar : Draft × List TrailingField) (field : Field)
    (room : sofar.1.slots ≤ maxSlots) :
    Ends setting.schema setting.width (fun _ => setting.schema.FieldSpaced field)
      (layOutField setting struct sofar field) := by
  obtain ⟨run, step⟩ := setting.schema.exists_fieldStep field
  rw [step.layOutField_eq rfl]
  cases step with
  | string node => exact Keeps.pure fun _ _ again => by cases node.symm.trans again
  | @dynamic element span node =>
    refine (keeps_elementFootprint_space finds found element).bind
      fun ⟨footprint, warnings⟩ ⟨shape, hasShape, le, leafless⟩ => ?_
    dsimp only at leafless ⊢
    split
    · exact Keeps.throw trivial
    · rename_i align largest
      refine Keeps.pure fun other _ again => ?_
      cases node.symm.trans again
      refine ⟨shape, hasShape, le, fun none => ?_⟩
      rw [leafless.mpr none] at largest
      contradiction
  | fixed _ notDynamic =>
    exact (keeps_layOutType_quiet finds found _ _ _ room).bind fun _ _ =>
      Keeps.pure fun element span node => (notDynamic element span node).elim

theorem keeps_layOutStruct_spaced (finds : Finds setting.schema setting.width struct)
    (found : FindsQuiet setting struct) (name : String) (fields : List Field) (span : Span) :
    Ends setting.schema setting.width (fun _ => ∀ field ∈ fields, setting.schema.FieldSpaced field)
      (layOutStruct setting struct name fields span) := by
  unfold layOutStruct
  refine (Keeps.foldlM_all (fun sofar : Draft × List TrailingField => sofar.1.slots ≤ maxSlots)
    setting.schema.FieldSpaced (fun field _ sofar room => ?_) (Nat.zero_le _)).bind ?_
  · exact ((keeps_layOutField_quiet finds found sofar field room).ensuring
      (keeps_layOutField_spaced finds found sofar field room) fun _ good => good).mono
        fun _ ⟨⟨_, room, _⟩, last⟩ => ⟨room, last⟩
  · rintro ⟨draft, trailing⟩ ⟨_, spaced⟩
    dsimp only
    split
    · exact Keeps.throw trivial
    · exact Keeps.pure spaced

/-- The fields of a struct were accepted, and its dynamic elements take up space. -/
structure Schema.FieldsAccepted (schema : Schema) (name : String) : Prop where
  isStruct : schema.IsStruct name
  types : ∀ fields, schema.structFields? name = some fields →
    ∀ field ∈ fields, schema.FieldAccepted schema.TypeFormed field
  spaced : ∀ fields, schema.structFields? name = some fields →
    ∀ field ∈ fields, schema.FieldSpaced field

/-- A struct that is made anew has had its fields accepted. -/
theorem keeps_freshTemplate_accepts (setting : Setting) (depth : Nat) (name : String)
    (span : Span) :
    Ends setting.schema setting.width
      (fun t => setting.schema.FieldsAccepted name ∧ FieldsFormed setting.schema name t)
      (freshTemplate setting depth name span) := by
  refine @ends_freshTemplate setting
    (fun name t => setting.schema.FieldsAccepted name ∧ FieldsFormed setting.schema name t)
    (fun depth ih name fields span known => ?_) depth name span
  have finds := finds_freshTemplate setting depth
  have accepted := keeps_layOutStruct_closed (closed_typeFormed setting.schema)
    (fun name span => (ih name span).mono fun _ h => h.2) name fields span
  have spaced := keeps_layOutStruct_spaced finds (keeps_freshTemplate_quiet setting depth) name
    fields span
  have laid := (accepted.ensuring spaced fun _ good => good).ensuring
    (keeps_layOutStruct finds known span) fun _ good => good
  refine laid.mono fun t ⟨⟨⟨_, types⟩, spaced⟩, sound, same⟩ =>
    ⟨⟨⟨fields, known⟩, fun fields' known' => ?_, fun fields' known' => ?_⟩,
      sound.fieldsFormed same known types⟩
  · cases known.symm.trans known'
    exact types
  · cases known.symm.trans known'
    exact spaced

/-- A root struct that is laid out is well-formed. -/
theorem wellFormed_of_freshTemplate {depth : Nat} {root : String}
    (made : (freshTemplate setting depth root span .empty).1 = .ok t) :
    setting.schema.WellFormed root := by
  have empty : Cache.Sound setting.schema setting.width .empty := nofun
  obtain ⟨accepted, _⟩ := (keeps_freshTemplate_accepts setting depth root span _ empty).2.of_ok made
  obtain ⟨sound, same⟩ := (finds_freshTemplate setting depth root span _ empty).2.of_ok made
  obtain ⟨_, acyclic, _⟩ := (keeps_freshTemplate setting depth root span [] .empty rfl).2.of_ok made
  refine ⟨accepted.isStruct, accepted.types, acyclic, fun shape rootShape => ?_, ?_⟩
  · obtain ⟨own, ownShape, realizes⟩ := sound.shape
    rw [same] at ownShape
    rw [rootShape_unique rootShape ownShape, ← realizes.slots_eq]
    exact realizes.slots_le
  · rintro element ⟨fields, field, span, declared, member, node⟩ shape hasShape
    obtain ⟨own, ownShape, le, leaf⟩ :=
      accepted.spaced fields declared field member element span node
    obtain rfl := hasShape_unique hasShape own ownShape
    have formed := (accepted.types fields declared field member).element node
    obtain ⟨part, listed⟩ := List.exists_mem_of_ne_nil _ leaf
    exact ⟨⟨part, listed, hasShape.size_pos formed part listed⟩, le⟩

end PackedLayout
