import PackedLayout.Engine.Basic
import PackedLayout.Proofs.Outcomes

/-!
# Steps of laying out

Laying out a type goes by its node, laying out a name by its declaration, and laying out a field of
a struct by the node of its type. What is done for each is told here once, with all that is then
known of the schema: a fact about laying out is shown for each kind of step, and does not go through
the code again.

- `layOutForm`: one level of the recursion over types;
- `Schema.Refuses`: the errors of the types that have no layout, whatever is inside of them;
- `Schema.TypeStep`, `Schema.exists_typeStep`: what is done for a type;
- `VariantRun`, `layOutVariant_eq_ok_iff`: what is done for a variant that is laid out;
- `Schema.NameStep`, `Schema.exists_nameStep`: what is done for a name;
- `Schema.FieldStep`, `Schema.exists_fieldStep`: what is done for a field of a struct.
-/

namespace PackedLayout

/-- One level of laying out a type, where `layOut` puts in the types inside. -/
def layOutForm (setting : Setting) (struct : StructLayout) (layOut : TypeLayout) : TypeLayout :=
  fun id draft => do
    let w := setting.width
    match setting.schema.type? id with
    | none => throw ⟨.unknownType s!"#{id.raw}", .dummy⟩
    | some ⟨form, span⟩ =>
      match form with
      | .primitive p => draft.putLeaf w span (.ofSize p.size) p.size
      | .fixedString 0 => throw ⟨.zeroSized "string", span⟩
      | .fixedString length => draft.putLeaf w span .one length
      | .string => throw ⟨.variableString, span⟩
      | .array _ .dynamic => throw ⟨.dynamicArray, span⟩
      | .array _ (.fixed 0) => throw ⟨.zeroSized "array", span⟩
      | .array element (.fixed length) => layOutArray w span layOut element length draft
      | .variant arms encoding =>
        checkVariant arms.length encoding span
        layOutVariant w setting.options span layOut arms draft
      | .record fields => layOutFields layOut fields draft
      | .named name => layOutNamed setting span struct name draft

theorem layOutType_succ (setting : Setting) (struct : StructLayout) (depth : Nat) :
    layOutType setting struct (depth + 1) =
      layOutForm setting struct (layOutType setting struct depth) := rfl

variable {schema : Schema} {id : TypeId} {name : String}

/-! ## Types -/

/-- Why a type has no layout, whatever is inside of it. -/
inductive Schema.Refuses (schema : Schema) (id : TypeId) : LayoutError → Prop where
  | unknown (node : schema.type? id = none) :
      schema.Refuses id ⟨.unknownType s!"#{id.raw}", .dummy⟩
  | emptyString {span : Span} (node : schema.type? id = some ⟨.fixedString 0, span⟩) :
      schema.Refuses id ⟨.zeroSized "string", span⟩
  | string {span : Span} (node : schema.type? id = some ⟨.string, span⟩) :
      schema.Refuses id ⟨.variableString, span⟩
  | emptyArray {element : TypeId} {span : Span}
      (node : schema.type? id = some ⟨.array element (.fixed 0), span⟩) :
      schema.Refuses id ⟨.zeroSized "array", span⟩
  | dynamicArray {element : TypeId} {span : Span}
      (node : schema.type? id = some ⟨.array element .dynamic, span⟩) :
      schema.Refuses id ⟨.dynamicArray, span⟩
  | packedVariant {arms : List TypeId} {span : Span}
      (node : schema.type? id = some ⟨.variant arms .packed, span⟩) :
      schema.Refuses id ⟨.unsupportedVariant "packed", span⟩
  | dynamicVariant {arms : List TypeId} {span : Span}
      (node : schema.type? id = some ⟨.variant arms .dynamic, span⟩) :
      schema.Refuses id ⟨.unsupportedVariant "dynamic", span⟩
  | tooFewArms {arms : List TypeId} {span : Span}
      (node : schema.type? id = some ⟨.variant arms .fixed, span⟩) (few : arms.length < 2) :
      schema.Refuses id ⟨.tooFewArms arms.length, span⟩
  | tooManyArms {arms : List TypeId} {span : Span}
      (node : schema.type? id = some ⟨.variant arms .fixed, span⟩) (many : 65535 < arms.length) :
      schema.Refuses id ⟨.tooManyArms arms.length, span⟩

/-- What is done for a type, where a function for the structs and one for the types inside are
given. -/
inductive Schema.TypeStep (schema : Schema) (id : TypeId) :
    (Setting → StructLayout → TypeLayout → Draft → EngineM Draft) → Prop where
  | refused {e : LayoutError} (refuses : schema.Refuses id e) :
      schema.TypeStep id fun _ _ _ _ => throw e
  | primitive {p : Primitive} {span : Span}
      (node : schema.type? id = some ⟨.primitive p, span⟩) :
      schema.TypeStep id fun setting _ _ draft =>
        draft.putLeaf setting.width span (.ofSize p.size) p.size
  | string {length : Nat} {span : Span}
      (node : schema.type? id = some ⟨.fixedString length, span⟩) (pos : 0 < length) :
      schema.TypeStep id fun setting _ _ draft => draft.putLeaf setting.width span .one length
  | array {element : TypeId} {length : Nat} {span : Span}
      (node : schema.type? id = some ⟨.array element (.fixed length), span⟩) (pos : 0 < length) :
      schema.TypeStep id fun setting _ layOut draft =>
        layOutArray setting.width span layOut element length draft
  | variant {arms : List TypeId} {span : Span}
      (node : schema.type? id = some ⟨.variant arms .fixed, span⟩)
      (two : 2 ≤ arms.length) (most : arms.length ≤ 65535) :
      schema.TypeStep id fun setting _ layOut draft =>
        layOutVariant setting.width setting.options span layOut arms draft
  | record {fields : List Field} {span : Span}
      (node : schema.type? id = some ⟨.record fields, span⟩) :
      schema.TypeStep id fun _ _ layOut draft => layOutFields layOut fields draft
  | named {name : String} {span : Span} (node : schema.type? id = some ⟨.named name, span⟩) :
      schema.TypeStep id fun setting struct _ draft => layOutNamed setting span struct name draft

/-- A type is laid out by its step, in all settings where it has the same node. -/
theorem Schema.TypeStep.layOutForm_eq
    {run : Setting → StructLayout → TypeLayout → Draft → EngineM Draft}
    (step : schema.TypeStep id run) {setting : Setting}
    (same : setting.schema.type? id = schema.type? id) (struct : StructLayout)
    (layOut : TypeLayout) (draft : Draft) :
    layOutForm setting struct layOut id draft = run setting struct layOut draft := by
  unfold layOutForm
  rw [same]
  cases step with
  | refused refuses =>
    cases refuses with
    | unknown node | string node | dynamicArray node => rw [node]
    | emptyString node | emptyArray node | packedVariant node | dynamicVariant node =>
      rw [node]
      rfl
    | tooFewArms node few =>
      rw [node]
      dsimp only [checkVariant]
      rw [if_pos few]
      rfl
    | tooManyArms node many =>
      rw [node]
      dsimp only [checkVariant]
      rw [if_neg (by omega), if_pos many]
      rfl
  | string node pos | array node pos =>
    obtain ⟨length, rfl⟩ := Nat.exists_eq_succ_of_ne_zero (Nat.ne_of_gt pos)
    rw [node]
    rfl
  | variant node two most =>
    rw [node]
    dsimp only [checkVariant]
    rw [if_neg (Nat.not_lt.mpr two), if_neg (Nat.not_lt.mpr most)]
    rfl
  | primitive node | record node | named node => rw [node]

theorem Schema.exists_typeStep (schema : Schema) (id : TypeId) :
    ∃ run, schema.TypeStep id run := by
  cases node : schema.type? id with
  | none => exact ⟨_, .refused (.unknown node)⟩
  | some entry =>
    obtain ⟨form, span⟩ := entry
    cases form with
    | primitive p => exact ⟨_, .primitive node⟩
    | fixedString length =>
      cases length with
      | zero => exact ⟨_, .refused (.emptyString node)⟩
      | succ length => exact ⟨_, .string node length.succ_pos⟩
    | string => exact ⟨_, .refused (.string node)⟩
    | array element length =>
      cases length with
      | dynamic => exact ⟨_, .refused (.dynamicArray node)⟩
      | fixed length =>
        cases length with
        | zero => exact ⟨_, .refused (.emptyArray node)⟩
        | succ length => exact ⟨_, .array node length.succ_pos⟩
    | variant arms encoding =>
      cases encoding with
      | packed => exact ⟨_, .refused (.packedVariant node)⟩
      | dynamic => exact ⟨_, .refused (.dynamicVariant node)⟩
      | fixed =>
        by_cases few : arms.length < 2
        · exact ⟨_, .refused (.tooFewArms node few)⟩
        · by_cases many : 65535 < arms.length
          · exact ⟨_, .refused (.tooManyArms node many)⟩
          · exact ⟨_, .variant node (Nat.not_lt.mp few) (Nat.not_lt.mp many)⟩
    | record fields => exact ⟨_, .record node⟩
    | named name => exact ⟨_, .named node⟩

/-! ## Variants -/

/-- What happens when a variant is laid out: its tag is put in, its arms are collected, they are
resolved, and the zones they resolve to are put in. -/
structure VariantRun (w : Width) (options : Options) (span : Span) (layOut : TypeLayout)
    (ids : List TypeId) (draft : Draft) (cache : Cache) (tagged inner : Draft) (arms : List Arm)
    (r : Resolution) (after : Draft) : Prop where
  tag : draft.putLeaf w span (.ofSize (tagSize ids.length)) (tagSize ids.length) = .ok tagged
  walked : (collectArms w span layOut 0 [] ids { tagged with container := .arm [] } cache).1 =
    .ok (arms, inner)
  resolved : Resolution.ofArms w options.maxSearchBytes arms = .ok r
  put : ({ inner with container := tagged.container } : Draft).putVariant w options span draft.slots
    ids.length r = .ok after

theorem layOutVariant_eq_ok_iff {w : Width} {options : Options} {span : Span} {layOut : TypeLayout}
    {ids : List TypeId} {draft after : Draft} {cache : Cache} :
    (layOutVariant w options span layOut ids draft cache).1 = .ok after ↔
      ∃ tagged inner arms r,
        VariantRun w options span layOut ids draft cache tagged inner arms r after := by
  unfold layOutVariant
  constructor
  · intro laid
    obtain ⟨tagged, tag, laid⟩ := run_bind_eq_ok.mp laid
    dsimp only [Draft.exchange] at laid
    obtain ⟨⟨arms, inner⟩, walked, laid⟩ := run_bind_eq_ok.mp laid
    obtain ⟨r, resolved, put⟩ := run_bind_eq_ok.mp laid
    refine ⟨tagged, inner, arms, r, tag, walked, ?_, put⟩
    cases resolution : Resolution.ofArms w options.maxSearchBytes arms with
    | error e =>
      rw [resolution] at resolved
      exact absurd resolved nofun
    | ok r' =>
      rw [resolution] at resolved
      exact congrArg _ (Except.ok.inj resolved)
  · rintro ⟨tagged, inner, arms, r, tag, walked, resolved, put⟩
    apply run_bind_eq_ok.mpr
    refine ⟨tagged, tag, run_bind_eq_ok.mpr
      ⟨(arms, inner), walked, run_bind_eq_ok.mpr ⟨r, ?_, put⟩⟩⟩
    rw [resolved]
    rfl

/-! ## Names -/

/-- What is done for a name. -/
inductive Schema.NameStep (schema : Schema) (name : String) :
    (Setting → Span → StructLayout → Draft → EngineM Draft) → Prop where
  | unknown (declaration : schema.declaration? name = none) :
      schema.NameStep name fun _ span _ _ => throw ⟨.unknownType name, span⟩
  | badEnum {key : String} {repr : Primitive} {variants : List Enumerator} {declared : Span}
      (declaration : schema.declaration? name = some ⟨key, .enum repr variants, declared⟩)
      (notInteger : repr.isInteger = false) :
      schema.NameStep name fun _ span _ _ => throw ⟨.invalidEnumRepr name repr, span⟩
  | enum {key : String} {repr : Primitive} {variants : List Enumerator} {declared : Span}
      (declaration : schema.declaration? name = some ⟨key, .enum repr variants, declared⟩)
      (integer : repr.isInteger = true) :
      schema.NameStep name fun setting span _ draft =>
        draft.putLeaf setting.width span (.ofSize repr.size) repr.size
  | struct {key : String} {fields : List Field} {declared : Span}
      (declaration : schema.declaration? name = some ⟨key, .struct fields, declared⟩) :
      schema.NameStep name fun setting span struct draft => do
        let template ← struct name span
        if template.trailing.isEmpty then draft.embed setting.width span template
        else throw ⟨.variableInFixedContext name, span⟩

/-- A name is laid out by its step, in all settings where it has the same declaration. -/
theorem Schema.NameStep.layOutNamed_eq
    {run : Setting → Span → StructLayout → Draft → EngineM Draft}
    (step : schema.NameStep name run) {setting : Setting}
    (same : setting.schema.declaration? name = schema.declaration? name) (span : Span)
    (struct : StructLayout) (draft : Draft) :
    layOutNamed setting span struct name draft = run setting span struct draft := by
  unfold layOutNamed
  rw [same]
  cases step with
  | unknown declaration | struct declaration => rw [declaration]
  | badEnum declaration notInteger =>
    rw [declaration]
    exact if_neg (Bool.eq_false_iff.mp notInteger)
  | enum declaration integer =>
    rw [declaration]
    exact if_pos integer

theorem Schema.exists_nameStep (schema : Schema) (name : String) :
    ∃ run, schema.NameStep name run := by
  cases declaration : schema.declaration? name with
  | none => exact ⟨_, .unknown declaration⟩
  | some found =>
    obtain ⟨key, kind, declared⟩ := found
    cases kind with
    | struct fields => exact ⟨_, .struct declaration⟩
    | enum repr variants =>
      cases integer : repr.isInteger with
      | true => exact ⟨_, .enum declaration integer⟩
      | false => exact ⟨_, .badEnum declaration integer⟩

/-! ## Fields -/

/-- What is done for a field of a struct, after those before it. -/
inductive Schema.FieldStep (schema : Schema) (field : Field) :
    (Setting → StructLayout → Draft × List TrailingField → EngineM (Draft × List TrailingField)) →
      Prop where
  | string {span : Span} (node : schema.type? field.type = some ⟨.string, span⟩) :
      schema.FieldStep field fun _ _ sofar => pure (sofar.1, ⟨field.name, 1, .one⟩ :: sofar.2)
  | dynamic {element : TypeId} {span : Span}
      (node : schema.type? field.type = some ⟨.array element .dynamic, span⟩) :
      schema.FieldStep field fun setting struct sofar => do
        let (footprint, warnings) ← elementFootprint setting struct element
        match footprint.largest? with
        | none => throw ⟨.zeroSized "array element", span⟩
        | some align =>
          return ({ sofar.1 with warnings := sofar.1.warnings ++ warnings },
            ⟨field.name, footprint.totalBytes setting.width, align⟩ :: sofar.2)
  | fixed (notString : ∀ span, schema.type? field.type ≠ some ⟨.string, span⟩)
      (notDynamic : ∀ element span,
        schema.type? field.type ≠ some ⟨.array element .dynamic, span⟩) :
      schema.FieldStep field fun setting struct sofar =>
        return (← layOutNode setting struct field.type sofar.1, sofar.2)

variable {field : Field}

/-- A field is laid out by its step, in all settings where its type has the same node. -/
theorem Schema.FieldStep.layOutField_eq
    {run : Setting → StructLayout → Draft × List TrailingField →
      EngineM (Draft × List TrailingField)}
    (step : schema.FieldStep field run) {setting : Setting}
    (same : setting.schema.type? field.type = schema.type? field.type) (struct : StructLayout)
    (sofar : Draft × List TrailingField) :
    layOutField setting struct sofar field = run setting struct sofar := by
  unfold layOutField
  rw [same]
  cases step with
  | string node | dynamic node =>
    rewrite [node]
    rfl
  | fixed notString notDynamic =>
    dsimp only
    split
    · rename_i span node
      exact absurd node (notString span)
    · rename_i element span node
      exact absurd node (notDynamic element span)
    · rfl

theorem Schema.exists_fieldStep (schema : Schema) (field : Field) :
    ∃ run, schema.FieldStep field run := by
  by_cases string : ∃ span, schema.type? field.type = some ⟨.string, span⟩
  · obtain ⟨span, node⟩ := string
    exact ⟨_, .string node⟩
  by_cases dynamic : ∃ element span, schema.type? field.type = some ⟨.array element .dynamic, span⟩
  · obtain ⟨element, span, node⟩ := dynamic
    exact ⟨_, .dynamic node⟩
  exact ⟨_, .fixed (fun span node => string ⟨span, node⟩)
    fun element span node => dynamic ⟨element, span, node⟩⟩

end PackedLayout
