import PackedLayout.Proofs.LayoutSteps
import PackedLayout.Proofs.Outcomes
import PackedLayout.Proofs.Shape

/-!
# What a run has accepted

Laying out a type fails at the first node that has no layout. So a run that ends well has gone
through all nodes inside of the type, and each of them passed its checks.

- `TypeForm.inner`, `TypeForm.Formed`: the types inside of a node, and its checks;
- `Closed`: what holds of a type if it holds of the types inside of it and its node is formed;
- `keeps_layOutType_closed`, `keeps_layOutField_closed`: that holds of every type that is laid out.
-/

namespace PackedLayout

/-- The types that are laid out inside of a type. The element of a dynamic array is not. -/
def TypeForm.inner : TypeForm → List TypeId
  | .array element (.fixed _) => [element]
  | .variant arms _ => arms
  | .record fields => fields.map (·.type)
  | _ => []

/-- What is laid out for a field of a struct: the element of a dynamic array, and otherwise the
type of the field. -/
def Schema.laidOut (schema : Schema) (field : Field) : TypeId :=
  match schema.type? field.type with
  | some ⟨.array element .dynamic, _⟩ => element
  | _ => field.type

def Schema.IsStruct (schema : Schema) (name : String) : Prop :=
  ∃ fields, schema.structFields? name = some fields

/-- An enum is stored as an integer. -/
def DeclarationKind.Formed : DeclarationKind → Prop
  | .struct _ => True
  | .enum repr _ => repr.isInteger = true

/-- What a node must be like to have a layout, apart from the types inside of it: it has a size of
its own and takes up space, a variant is fixed and has 2 to 65535 arms, and a name is declared. -/
def TypeForm.Formed (schema : Schema) : TypeForm → Prop
  | .primitive _ => True
  | .fixedString length => 0 < length
  | .string => False
  | .array _ (.fixed length) => 0 < length
  | .array _ .dynamic => False
  | .variant arms encoding => encoding = .fixed ∧ 2 ≤ arms.length ∧ arms.length ≤ 65535
  | .record _ => True
  | .named name => ∃ d, schema.declaration? name = some d ∧ d.kind.Formed

variable {schema : Schema} {setting : Setting} {struct : StructLayout} {span : Span}
  {layOut : TypeLayout} {kept : Cache → Prop} {failure : LayoutError → Prop}
  {found : String → Template → Prop} {accepted : TypeId → Prop}

theorem Schema.laidOut_eq_element {field : Field} {element : TypeId}
    (node : schema.type? field.type = some ⟨.array element .dynamic, span⟩) :
    schema.laidOut field = element := by
  unfold Schema.laidOut
  rw [node]

theorem Schema.laidOut_eq_type {field : Field}
    (plain : ∀ element span,
      schema.type? field.type ≠ some ⟨.array element .dynamic, span⟩) :
    schema.laidOut field = field.type := by
  unfold Schema.laidOut
  split
  · rename_i element span node
    exact absurd node (plain element span)
  · rfl

theorem Schema.structFields?_eq_some {name : String} {fields : List Field} :
    schema.structFields? name = some fields ↔
      ∃ key declared, schema.declaration? name = some ⟨key, .struct fields, declared⟩ := by
  unfold Schema.structFields?
  split
  · rename_i key fields' declared declaration
    constructor
    · intro h
      rw [declaration, Option.some.inj h]
      exact ⟨key, declared, rfl⟩
    · rintro ⟨_, _, h⟩
      rw [declaration] at h
      cases h
      rfl
  · rename_i other
    constructor
    · exact nofun
    · rintro ⟨key, declared, h⟩
      exact absurd h (other key fields declared)

/-- It holds of a type whose node is formed, if it holds of the types inside of it and a template
without trailing fields is found for a struct. -/
def Closed (schema : Schema) (found : String → Template → Prop) (accepted : TypeId → Prop) :
    Prop :=
  ∀ id form span, schema.type? id = some ⟨form, span⟩ → form.Formed schema →
    (∀ part ∈ form.inner, accepted part) →
    (∀ name, form = .named name → schema.IsStruct name → ∃ t, found name t ∧ t.trailing = []) →
    accepted id

/-- A run that ends well has accepted some types. -/
abbrev Accepts {α : Type} (kept : Cache → Prop) (failure : LayoutError → Prop)
    (accepted : TypeId → Prop) (ids : List TypeId) (act : EngineM α) : Prop :=
  Keeps kept failure (fun _ => ∀ id ∈ ids, accepted id) act

/-! ## Types -/

theorem keeps_layOutFields_accepts (accepted : TypeId → Prop) (fields : List Field) (draft : Draft)
    (accepts : ∀ field ∈ fields, ∀ draft,
      Keeps kept failure (fun _ => accepted field.type) (layOut field.type draft)) :
    Accepts kept failure accepted (fields.map (·.type)) (layOutFields layOut fields draft) := by
  unfold layOutFields
  refine (Keeps.foldlM_all (fun _ => True) (fun field : Field => accepted field.type)
    (fun field member now _ => ?_) trivial).mono fun _ ⟨_, all⟩ => List.forall_mem_map.mpr all
  exact (accepts field member now).mono fun _ here => ⟨trivial, here⟩

theorem keeps_collectArms_accepts {w : Width} (accepted : TypeId → Prop)
    (overflow : ∀ span, failure (.overflow span)) (ids : List TypeId) (index : Nat)
    (collected : List Arm) (draft : Draft)
    (accepts : ∀ id ∈ ids, ∀ draft, Keeps kept failure (fun _ => accepted id) (layOut id draft)) :
    Accepts kept failure accepted ids (collectArms w span layOut index collected ids draft) := by
  induction ids generalizing index collected draft with
  | nil => exact Keeps.pure nofun
  | cons id rest ih =>
    unfold collectArms
    have ⟨accepts_first, accepts_rest⟩ := List.forall_mem_cons.mp accepts
    refine (accepts_first draft).bind fun next first => ?_
    dsimp only [Draft.exchange]
    split
    · exact (ih _ _ _ accepts_rest).mono fun _ others => List.forall_mem_cons.mpr ⟨first, others⟩
    · exact Keeps.throw (overflow span)

theorem keeps_layOutNamed_closed {name : String} {draft : Draft}
    (asks : ∀ name span, Keeps kept (fun _ => True) (found name) (struct name span)) :
    Keeps kept (fun _ => True)
      (fun _ => (TypeForm.named name).Formed setting.schema ∧
        (setting.schema.IsStruct name → ∃ t, found name t ∧ t.trailing = []))
      (layOutNamed setting span struct name draft) := by
  obtain ⟨run, step⟩ := setting.schema.exists_nameStep name
  rw [step.layOutNamed_eq rfl]
  cases step with
  | unknown | badEnum => exact Keeps.throw trivial
  | enum declaration integer =>
    refine (keeps_anything _).mono fun _ _ =>
      ⟨⟨_, declaration, integer⟩, fun ⟨fields, known⟩ => ?_⟩
    obtain ⟨_, _, again⟩ := Schema.structFields?_eq_some.mp known
    cases declaration.symm.trans again
  | struct declaration =>
    refine (asks name span).bind fun t here => ?_
    split
    · rename_i fixed
      exact (keeps_anything _).mono fun _ _ =>
        ⟨⟨_, declaration, trivial⟩, fun _ => ⟨t, here, List.isEmpty_iff.mp fixed⟩⟩
    · exact Keeps.throw trivial

/-- A type that is laid out is accepted. -/
theorem keeps_layOutType_closed (closed : Closed setting.schema found accepted)
    (asks : ∀ name span, Keeps kept (fun _ => True) (found name) (struct name span))
    (depth : Nat) (id : TypeId) (draft : Draft) :
    Keeps kept (fun _ => True) (fun _ => accepted id)
      (layOutType setting struct depth id draft) := by
  induction depth generalizing id draft with
  | zero => exact Keeps.throw trivial
  | succ depth ih =>
    -- a node that is not a name has to be formed, and what is inside of it accepted
    have plain {form : TypeForm} {span : Span} (node : setting.schema.type? id = some ⟨form, span⟩)
        (formed : form.Formed setting.schema) (named : ∀ name, form ≠ .named name)
        (all : ∀ part ∈ form.inner, accepted part) : accepted id :=
      closed id form span node formed all fun name same => absurd same (named name)
    obtain ⟨run, step⟩ := setting.schema.exists_typeStep id
    rw [layOutType_succ, step.layOutForm_eq rfl]
    cases step with
    | refused => exact Keeps.throw trivial
    | primitive node => exact (keeps_anything _).mono fun _ _ => plain node trivial nofun nofun
    | string node pos => exact (keeps_anything _).mono fun _ _ => plain node pos nofun nofun
    | array node pos =>
      unfold layOutArray
      dsimp only [Draft.exchange]
      refine (ih _ _).bind fun _ inside => (keeps_anything _).mono fun _ _ =>
        plain node pos nofun ?_
      exact fun part member => List.mem_singleton.mp member ▸ inside
    | variant node two most =>
      unfold layOutVariant
      dsimp only [Draft.exchange]
      refine (keeps_anything _).bind fun tagged _ => ?_
      refine (keeps_collectArms_accepts accepted (fun _ => trivial) _ 0 [] _
        fun id _ => ih id).bind fun _ all => ?_
      exact (keeps_anything _).bind fun _ _ =>
        (keeps_anything _).mono fun _ _ => plain node ⟨rfl, two, most⟩ nofun all
    | record node =>
      exact (keeps_layOutFields_accepts accepted _ draft fun field _ => ih field.type).mono
        fun _ all => plain node trivial nofun all
    | named node =>
      refine (keeps_layOutNamed_closed asks).mono fun _ ⟨formed, here⟩ => ?_
      refine closed id _ _ node formed nofun fun other same => ?_
      cases same
      exact here

/-! ## Structs -/

/-- What is laid out for the field is accepted; for a string nothing is. -/
def Schema.FieldAccepted (schema : Schema) (accepted : TypeId → Prop) (field : Field) : Prop :=
  (∀ span, schema.type? field.type ≠ some ⟨.string, span⟩) → accepted (schema.laidOut field)

theorem Schema.not_string_of_dynamic {field : Field} {element : TypeId} {span' : Span}
    (node : schema.type? field.type = some ⟨.array element .dynamic, span⟩) :
    schema.type? field.type ≠ some ⟨.string, span'⟩ := by
  rw [node]
  exact nofun

namespace Schema.FieldAccepted

variable {field : Field}

theorem of_element {element : TypeId}
    (node : schema.type? field.type = some ⟨.array element .dynamic, span⟩)
    (h : accepted element) : schema.FieldAccepted accepted field :=
  fun _ => Schema.laidOut_eq_element node ▸ h

theorem element {element : TypeId} (h : schema.FieldAccepted accepted field)
    (node : schema.type? field.type = some ⟨.array element .dynamic, span⟩) : accepted element :=
  Schema.laidOut_eq_element node ▸ h fun _ => Schema.not_string_of_dynamic node

theorem of_type (h : accepted field.type)
    (plain : ∀ element span,
      schema.type? field.type ≠ some ⟨.array element .dynamic, span⟩) :
    schema.FieldAccepted accepted field :=
  fun _ => Schema.laidOut_eq_type plain ▸ h

theorem type (h : schema.FieldAccepted accepted field) (fixed : schema.isTrailing field = false) :
    accepted field.type := by
  obtain ⟨notString, notDynamic⟩ := Schema.isTrailing_eq_false.mp fixed
  rw [← Schema.laidOut_eq_type notDynamic]
  exact h notString

end Schema.FieldAccepted

theorem keeps_layOutField_closed (closed : Closed setting.schema found accepted)
    (asks : ∀ name span, Keeps kept (fun _ => True) (found name) (struct name span))
    (sofar : Draft × List TrailingField) (field : Field) :
    Keeps kept (fun _ => True) (fun _ => setting.schema.FieldAccepted accepted field)
      (layOutField setting struct sofar field) := by
  obtain ⟨run, step⟩ := setting.schema.exists_fieldStep field
  rw [step.layOutField_eq rfl]
  cases step with
  | string node => exact Keeps.pure fun plain => absurd node (plain _)
  | @dynamic element span node =>
    have inside : Keeps kept (fun _ => True) (fun _ => accepted element)
        (elementFootprint setting struct element) := by
      refine (keeps_layOutType_closed closed asks _ _ _).bind fun _ inside => ?_
      split
      · exact Keeps.pure inside
      · exact Keeps.throw trivial
    refine inside.bind fun ⟨footprint, warnings⟩ inside => ?_
    dsimp only
    split
    · exact Keeps.throw trivial
    · exact Keeps.pure (.of_element node inside)
  | fixed _ notDynamic =>
    exact (keeps_layOutType_closed closed asks _ _ _).bind fun _ inside =>
      Keeps.pure (.of_type inside notDynamic)

/-- A struct that is laid out has had what is laid out for its fields accepted. -/
theorem keeps_layOutStruct_closed (closed : Closed setting.schema found accepted)
    (asks : ∀ name span, Keeps kept (fun _ => True) (found name) (struct name span))
    (name : String) (fields : List Field) (span : Span) :
    Keeps kept (fun _ => True)
      (fun t => t.name = name ∧ ∀ field ∈ fields, setting.schema.FieldAccepted accepted field)
      (layOutStruct setting struct name fields span) := by
  unfold layOutStruct
  refine (Keeps.foldlM_all (fun _ => True) (setting.schema.FieldAccepted accepted)
    (fun field _ now _ => ?_) trivial).bind ?_
  · exact (keeps_layOutField_closed closed asks now field).mono fun _ here => ⟨trivial, here⟩
  · rintro ⟨draft, trailing⟩ ⟨_, all⟩
    dsimp only
    split
    · exact Keeps.throw trivial
    · exact Keeps.pure ⟨rfl, all⟩

end PackedLayout
