import Mathlib.Logic.Relation
import PackedLayout.Proofs.Accepting
import PackedLayout.Proofs.Agreement

/-!
# References between structs

Laying out a struct asks for the structs that its fields mention, and for no others:

- `Mentions`, `Refers`: the structs that a type mentions, and those that a struct refers to;
- `keeps_layOutStruct_refers`: a run that ends well has asked for all of them;
- `agree_layOutType`, `agree_layOutStruct`: runs agree whose structs are found alike.
-/

namespace PackedLayout

/-- A type is a named type, or one is inside of it. -/
inductive Mentions (schema : Schema) : TypeId → String → Prop
  | named {id : TypeId} {name : String} {span : Span}
    (node : schema.type? id = some ⟨.named name, span⟩) : Mentions schema id name
  | inner {id part : TypeId} {form : TypeForm} {span : Span} {name : String}
    (node : schema.type? id = some ⟨form, span⟩) (member : part ∈ form.inner)
    (mentions : Mentions schema part name) : Mentions schema id name

/-- A field of the struct `a` mentions the struct `b`. -/
def Refers (schema : Schema) (a b : String) : Prop :=
  ∃ fields field, schema.structFields? a = some fields ∧ field ∈ fields ∧
    Mentions schema (schema.laidOut field) b ∧ schema.IsStruct b

variable {schema : Schema} {setting : Setting} {struct struct' : StructLayout} {span : Span}

theorem Mentions.of_node {id : TypeId} {form : TypeForm} {name : String}
    (mentions : Mentions schema id name) (node : schema.type? id = some ⟨form, span⟩) :
    form = .named name ∨ ∃ part ∈ form.inner, Mentions schema part name := by
  cases mentions with
  | named again =>
    cases node.symm.trans again
    exact .inl rfl
  | inner again member inner =>
    cases node.symm.trans again
    exact .inr ⟨_, member, inner⟩

/-! ## What a run asks for -/

/-- Nothing is mentioned by a string. -/
theorem Mentions.not_string {id : TypeId} {name : String} (mentions : Mentions schema id name) :
    schema.type? id ≠ some ⟨.string, span⟩ := by
  intro node
  obtain same | ⟨_, absent, _⟩ := mentions.of_node node
  · contradiction
  · exact absurd absent List.not_mem_nil

/-- A type is accepted if every struct that it mentions has been found. -/
theorem closed_mentions (schema : Schema) (found : String → Prop) :
    Closed schema (fun name _ => found name)
      (fun id => ∀ name, Mentions schema id name → schema.IsStruct name → found name) := by
  intro id form span node _ all named name mentions isStruct
  obtain same | ⟨part, member, mentions⟩ := mentions.of_node node
  · obtain ⟨_, here, _⟩ := named name same isStruct
    exact here
  · exact all part member name mentions isStruct

/-- A struct that is laid out has asked for every struct that it refers to. -/
theorem keeps_layOutStruct_refers {kept : Cache → Prop} {found : String → Prop} {name : String}
    {fields : List Field} (declared : setting.schema.structFields? name = some fields) (span : Span)
    (asks : ∀ name span, Keeps kept (fun _ => True) (fun _ => found name) (struct name span)) :
    Keeps kept (fun _ => True)
      (fun t => t.name = name ∧ ∀ other, Refers setting.schema name other → found other)
      (layOutStruct setting struct name fields span) := by
  refine (keeps_layOutStruct_closed (closed_mentions setting.schema found) asks name fields
    span).mono fun t ⟨same, all⟩ => ⟨same, ?_⟩
  rintro other ⟨fields', field, known, member, mentions, isStruct⟩
  cases declared.symm.trans known
  refine all field member (fun span node => ?_) other mentions isStruct
  have plain : setting.schema.laidOut field = field.type :=
    Schema.laidOut_eq_type fun _ _ again => Schema.not_string_of_dynamic again node
  exact (plain ▸ mentions).not_string node

/-! ## Runs that find their structs alike -/

section Agreement

variable {rel : Cache → Cache → Prop} {loose : LayoutError → Prop} {layOut layOut' : TypeLayout}

/-- Runs that end alike, whatever their value. -/
abbrev Agrees {α : Type} (rel : Cache → Cache → Prop) (loose : LayoutError → Prop)
    (act act' : EngineM α) : Prop :=
  Agree rel loose (fun _ => True) act act'

theorem agree_same {α : Type} (run : Except LayoutError α) :
    Agrees rel loose (liftM run : EngineM α) (liftM run) := by
  apply Agree.lift
  apply Alike.same
  cases run <;> trivial

/-- The structs that a type mentions are found alike. -/
def FoundAlike (schema : Schema) (rel : Cache → Cache → Prop) (loose : LayoutError → Prop)
    (struct struct' : StructLayout) (id : TypeId) : Prop :=
  ∀ name, Mentions schema id name → schema.IsStruct name →
    ∀ span, Agrees rel loose (struct name span) (struct' name span)

theorem agree_layOutFields (fields : List Field) (draft : Draft)
    (same : ∀ field ∈ fields, ∀ draft,
      Agrees rel loose (layOut field.type draft) (layOut' field.type draft)) :
    Agrees rel loose (layOutFields layOut fields draft) (layOutFields layOut' fields draft) := by
  unfold layOutFields
  refine (Agree.foldlM (fun rest _ => ∀ field ∈ rest, field ∈ fields) ?_
    (fun _ member => member)).mono fun _ _ => trivial
  intro field rest now listed
  refine (same field (listed field List.mem_cons_self) now).mono fun _ _ => ?_
  exact fun other later => listed other (List.mem_cons_of_mem _ later)

theorem agree_collectArms {w : Width} (ids : List TypeId) (index : Nat) (collected : List Arm)
    (draft : Draft)
    (same : ∀ id ∈ ids, ∀ draft, Agrees rel loose (layOut id draft) (layOut' id draft)) :
    Agrees rel loose (collectArms w span layOut index collected ids draft)
      (collectArms w span layOut' index collected ids draft) := by
  induction ids generalizing index collected draft with
  | nil => exact Agree.pure trivial
  | cons id rest ih =>
    unfold collectArms
    refine (same id List.mem_cons_self draft).bind fun next _ => ?_
    dsimp only [Draft.exchange]
    split
    · exact ih _ _ _ fun other later => same other (List.mem_cons_of_mem _ later)
    · exact Agree.throw _

theorem agree_layOutNamed {name : String} {draft : Draft}
    (same : setting.schema.IsStruct name →
      Agrees rel loose (struct name span) (struct' name span)) :
    Agrees rel loose (layOutNamed setting span struct name draft)
      (layOutNamed setting span struct' name draft) := by
  obtain ⟨run, step⟩ := setting.schema.exists_nameStep name
  rw [step.layOutNamed_eq rfl, step.layOutNamed_eq rfl]
  cases step with
  | unknown | badEnum => exact Agree.throw _
  | enum => exact agree_same _
  | struct declaration =>
    refine (same ⟨_, Schema.structFields?_eq_some.mpr ⟨_, _, declaration⟩⟩).bind fun t _ => ?_
    split
    · exact agree_same _
    · exact Agree.throw _

/-- Laying out a type only depends on the structs that it mentions. -/
theorem agree_layOutType (depth : Nat) {id : TypeId} (draft : Draft)
    (alike : FoundAlike setting.schema rel loose struct struct' id) :
    Agrees rel loose (layOutType setting struct depth id draft)
      (layOutType setting struct' depth id draft) := by
  induction depth generalizing id draft with
  | zero => exact Agree.throw _
  | succ depth ih =>
    have inside {form : TypeForm} {span : Span} {part : TypeId}
        (node : setting.schema.type? id = some ⟨form, span⟩) (member : part ∈ form.inner)
        (draft : Draft) :
        Agrees rel loose (layOutType setting struct depth part draft)
          (layOutType setting struct' depth part draft) :=
      ih draft fun name mentions => alike name (.inner node member mentions)
    obtain ⟨run, step⟩ := setting.schema.exists_typeStep id
    rw [layOutType_succ, layOutType_succ, step.layOutForm_eq rfl, step.layOutForm_eq rfl]
    cases step with
    | refused => exact Agree.throw _
    | primitive | string => exact agree_same _
    | array node =>
      unfold layOutArray
      dsimp only [Draft.exchange]
      exact (inside node List.mem_cons_self _).bind fun _ _ => agree_same _
    | variant node =>
      unfold layOutVariant
      dsimp only [Draft.exchange]
      refine (agree_same _).bind fun tagged _ => ?_
      refine (agree_collectArms _ _ _ _ fun id member => inside node member).bind fun _ _ => ?_
      exact (agree_same _).bind fun _ _ => agree_same _
    | record node =>
      refine agree_layOutFields _ _ fun field member => inside node ?_
      exact List.mem_map_of_mem member
    | named node => exact agree_layOutNamed fun isStruct => alike _ (.named node) isStruct _

theorem agree_elementFootprint {element : TypeId}
    (alike : FoundAlike setting.schema rel loose struct struct' element) :
    Agrees rel loose (elementFootprint setting struct element)
      (elementFootprint setting struct' element) := by
  unfold elementFootprint
  refine (agree_layOutType _ _ alike).bind fun draft _ => ?_
  split
  · exact Agree.pure trivial
  · exact Agree.throw _

theorem agree_layOutField (sofar : Draft × List TrailingField) (field : Field)
    (alike : FoundAlike setting.schema rel loose struct struct' (setting.schema.laidOut field)) :
    Agrees rel loose (layOutField setting struct sofar field)
      (layOutField setting struct' sofar field) := by
  obtain ⟨run, step⟩ := setting.schema.exists_fieldStep field
  rw [step.layOutField_eq rfl, step.layOutField_eq rfl]
  cases step with
  | string => exact Agree.pure trivial
  | @dynamic element span node =>
    rw [Schema.laidOut_eq_element node] at alike
    refine (agree_elementFootprint alike).bind fun ⟨footprint, warnings⟩ _ => ?_
    dsimp only
    split
    · exact Agree.throw _
    · exact Agree.pure trivial
  | fixed _ notDynamic =>
    rw [Schema.laidOut_eq_type notDynamic] at alike
    exact (agree_layOutType _ _ alike).bind fun _ _ => Agree.pure trivial

/-- Laying out a struct only depends on the structs that it refers to. -/
theorem agree_layOutStruct {name : String} {fields : List Field}
    (declared : setting.schema.structFields? name = some fields) (span : Span)
    (alike : ∀ other, Refers setting.schema name other → ∀ span,
      Agrees rel loose (struct other span) (struct' other span)) :
    Agrees rel loose (layOutStruct setting struct name fields span)
      (layOutStruct setting struct' name fields span) := by
  unfold layOutStruct
  refine (Agree.foldlM (fun rest _ => ∀ field ∈ rest, field ∈ fields) ?_
    (fun _ member => member)).bind ?_
  · intro field rest now listed
    refine (agree_layOutField now field ?_).mono fun _ _ other later =>
      listed other (List.mem_cons_of_mem _ later)
    intro other mentions isStruct
    exact alike other ⟨fields, field, declared, listed field List.mem_cons_self, mentions, isStruct⟩
  · rintro ⟨draft, trailing⟩ _
    dsimp only
    split
    · exact Agree.throw _
    · exact Agree.pure trivial

end Agreement

end PackedLayout
