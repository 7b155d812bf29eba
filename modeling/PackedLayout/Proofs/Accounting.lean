import PackedLayout.Layout.Queries
import PackedLayout.Proofs.Echoing
import PackedLayout.Proofs.ResolvedVariants
import PackedLayout.Proofs.StorageSize

/-!
# Warnings and variants

The variants of a layout and its warnings are two lists that grow at different places: at the end
of a variant, with every copy of a struct, and where the element of a dynamic array is measured.
They tell the same all the time, but for the elements that are measured.

- `Accounted`: every variant that is not perfect has a warning, and every warning has such a
  variant;
- `keeps_layOutType_accounted`, `keeps_layOutStruct_accounted`: laying out a type or a struct keeps
  it so;
- `isPerfect_accounted`: so a layout is perfect just if its variants are.
-/

namespace PackedLayout

/-- Every variant that is not perfect has a warning of its place, and, where nothing is measured
besides, every warning has such a variant. -/
structure Accounted (alone : Prop) (variants : Array VariantLayout) (warnings : Array Warning) :
    Prop where
  warned : ∀ v ∈ variants, v.perfect = false → ∃ warning ∈ warnings, warning.span = v.span
  recorded : alone → ∀ warning ∈ warnings, ∃ v ∈ variants, v.perfect = false ∧ v.span = warning.span

namespace Accounted

variable {alone : Prop} {variants others : Array VariantLayout} {warnings more : Array Warning}

theorem empty (alone : Prop) : Accounted alone #[] #[] :=
  ⟨fun v absent => absurd absent (Array.not_mem_empty v),
    fun _ warning absent => absurd absent (Array.not_mem_empty warning)⟩

theorem mono {other : Prop} (h : Accounted alone variants warnings) (imp : other → alone) :
    Accounted other variants warnings :=
  ⟨h.warned, fun here => h.recorded (imp here)⟩

theorem append (h : Accounted alone variants warnings) (h' : Accounted alone others more) :
    Accounted alone (variants ++ others) (warnings ++ more) := by
  constructor
  · intro v member imperfect
    obtain first | second := Array.mem_append.mp member
    · obtain ⟨warning, listed, same⟩ := h.warned v first imperfect
      exact ⟨warning, Array.mem_append_left _ listed, same⟩
    · obtain ⟨warning, listed, same⟩ := h'.warned v second imperfect
      exact ⟨warning, Array.mem_append_right _ listed, same⟩
  · intro here warning member
    obtain first | second := Array.mem_append.mp member
    · obtain ⟨v, listed, found⟩ := h.recorded here warning first
      exact ⟨v, Array.mem_append_left _ listed, found⟩
    · obtain ⟨v, listed, found⟩ := h'.recorded here warning second
      exact ⟨v, Array.mem_append_right _ listed, found⟩

/-- The copies of variants have other tags only. -/
theorem renumber (h : Accounted alone variants warnings) (slots : Nat) :
    Accounted alone (variants.map (VariantLayout.renumber slots)) warnings := by
  constructor
  · intro v member imperfect
    obtain ⟨own, listed, rfl⟩ := Array.mem_map.mp member
    exact h.warned own listed imperfect
  · intro here warning member
    obtain ⟨v, listed, found⟩ := h.recorded here warning member
    exact ⟨v.renumber slots, Array.mem_map_of_mem listed, found⟩

/-- A resolution is recorded as perfect just if nothing is reported. -/
theorem resolve (h : Accounted alone variants warnings) (tag arms : Nat) (r : Resolution)
    (span : Span) : Accounted alone
      (variants.push ⟨tag, arms, r.target, r.layout, r.required, r.isPerfect, span⟩)
      (warnings ++ r.degradations.map fun d => (⟨d, span⟩ : Warning)) := by
  constructor
  · intro v member imperfect
    obtain earlier | rfl := Array.mem_push.mp member
    · obtain ⟨warning, listed, same⟩ := h.warned v earlier imperfect
      exact ⟨warning, Draft.mem_warned.mpr (.inl listed), same⟩
    · obtain ⟨d, reported⟩ := List.exists_mem_of_ne_nil _ (List.isEmpty_eq_false_iff.mp imperfect)
      exact ⟨⟨d, span⟩, Draft.mem_warned.mpr (.inr ⟨d, reported, rfl⟩), rfl⟩
  · intro here warning member
    obtain earlier | ⟨d, reported, rfl⟩ := Draft.mem_warned.mp member
    · obtain ⟨v, listed, found⟩ := h.recorded here warning earlier
      exact ⟨v, Array.mem_push_of_mem _ listed, found⟩
    · have imperfect : r.isPerfect = false :=
        List.isEmpty_eq_false_iff.mpr (List.ne_nil_of_mem reported)
      exact ⟨_, Array.mem_push_self, imperfect, rfl⟩

end Accounted

/-- The variants and the warnings of a draft tell the same. -/
abbrev Draft.Accounted (alone : Prop) (draft : Draft) : Prop :=
  PackedLayout.Accounted alone draft.variants draft.warnings

/-- No field of the struct is a dynamic array. -/
def Schema.NothingMeasured (schema : Schema) (name : String) : Prop :=
  ∀ fields, schema.structFields? name = some fields → ∀ field ∈ fields, ∀ element span,
    schema.type? field.type ≠ some ⟨.array element .dynamic, span⟩

/-- The variants and the warnings of a template tell the same, unless elements were measured. -/
abbrev Template.Accounted (schema : Schema) (t : Template) : Prop :=
  PackedLayout.Accounted (schema.NothingMeasured t.name) t.variants t.warnings

/-- Structs are found whose variants and warnings tell the same. -/
def FindsAccounted (setting : Setting) (struct : StructLayout) : Prop :=
  ∀ name span, Ends setting.schema setting.width (Template.Accounted setting.schema)
    (struct name span)

/-- Where the variants and the warnings tell the same, they do so behind a type. -/
def KeepsAccounts (schema : Schema) (w : Width) (layOut : TypeLayout) : Prop :=
  ∀ alone id draft, draft.Accounted alone → Ends schema w (Draft.Accounted alone) (layOut id draft)

variable {schema : Schema} {w : Width} {setting : Setting} {struct : StructLayout}
  {layOut : TypeLayout} {alone : Prop} {span : Span} {draft : Draft}

/-! ## Types -/

theorem Draft.Accounted.of_keepsReports {run : Except LayoutError Draft} (h : draft.Accounted alone)
    (kept : draft.KeepsReports run) : Ensures (fun _ => True) (Draft.Accounted alone) run :=
  kept.mono fun _ ⟨variants, warnings⟩ => by rwa [Draft.Accounted, variants, warnings]

theorem keeps_layOutFields_accounted (keeps : KeepsAccounts schema w layOut) (fields : List Field)
    (h : draft.Accounted alone) :
    Ends schema w (Draft.Accounted alone) (layOutFields layOut fields draft) :=
  Keeps.foldlM (fun _ => Draft.Accounted alone)
    (fun field _ now h => keeps alone field.type now h) h

theorem keeps_collectArms_accounted (keeps : KeepsAccounts schema w layOut) (ids : List TypeId)
    (index : Nat) (collected : List Arm) (h : draft.Accounted alone) :
    Ends schema w (fun r => r.2.Accounted alone)
      (collectArms w span layOut index collected ids draft) := by
  induction ids generalizing index collected draft with
  | nil => exact Keeps.pure h
  | cons id rest ih =>
    unfold collectArms
    refine (keeps alone id draft h).bind fun next h => ?_
    dsimp only [Draft.exchange]
    split
    · exact ih _ _ h
    · exact Keeps.throw trivial

theorem keeps_layOutVariant_accounted {options : Options} (keeps : KeepsAccounts schema w layOut)
    (ids : List TypeId) (h : draft.Accounted alone) :
    Ends schema w (Draft.Accounted alone) (layOutVariant w options span layOut ids draft) := by
  unfold layOutVariant
  dsimp only [Draft.exchange]
  refine (Keeps.lift (h.of_keepsReports (Draft.keepsReports_putLeaf _ _))).bind fun tagged h => ?_
  have inner : Draft.Accounted alone { tagged with container := .arm [] } := h
  refine (keeps_collectArms_accounted keeps ids 0 [] inner).bind fun ⟨arms, filled⟩ h => ?_
  refine (keeps_anything _).bind fun r _ => Keeps.lift ((ensures_eq_ok _).mono fun after put => ?_)
  obtain ⟨_, same, _⟩ := Draft.of_putVariant put
  rw [Draft.Accounted, same]
  exact h.resolve draft.slots ids.length r span

theorem keeps_layOutNamed_accounted (finds : Finds setting.schema setting.width struct)
    (accounted : FindsAccounted setting struct) (name : String) (h : draft.Accounted alone) :
    Ends setting.schema setting.width (Draft.Accounted alone)
      (layOutNamed setting span struct name draft) := by
  obtain ⟨run, step⟩ := setting.schema.exists_nameStep name
  rw [step.layOutNamed_eq rfl]
  cases step with
  | unknown | badEnum => exact Keeps.throw trivial
  | enum => exact Keeps.lift (h.of_keepsReports (Draft.keepsReports_putLeaf _ _))
  | struct =>
    refine ((accounted name span).ensuring (finds name span) fun _ sound => sound).bind ?_
    rintro t ⟨tells, sound, rfl⟩
    split
    · rename_i fixed
      -- a struct that may be used has no trailing fields, so no dynamic arrays
      have none : setting.schema.NothingMeasured t.name := by
        intro fields known field member
        have plain := sound.filter_eq (List.isEmpty_iff.mp fixed) known
        rw [List.filter_eq_self] at plain
        exact (Schema.isTrailing_eq_false.mp (by simpa using plain field member)).2
      refine Keeps.lift ((ensures_eq_ok _).mono fun after put => ?_)
      rw [Draft.Accounted, (Draft.of_embed put).1]
      exact h.append ((tells.mono fun _ => none).renumber draft.slots)
    · exact Keeps.throw trivial

/-- Laying out a type keeps the variants and the warnings telling the same. -/
theorem keeps_layOutType_accounted (finds : Finds setting.schema setting.width struct)
    (accounted : FindsAccounted setting struct) (depth : Nat) :
    KeepsAccounts setting.schema setting.width (layOutType setting struct depth) := by
  induction depth with
  | zero => exact fun _ _ _ _ => Keeps.throw trivial
  | succ depth ih =>
    intro alone id draft h
    obtain ⟨run, step⟩ := setting.schema.exists_typeStep id
    rw [layOutType_succ, step.layOutForm_eq rfl]
    cases step with
    | refused => exact Keeps.throw trivial
    | primitive | string => exact Keeps.lift (h.of_keepsReports (Draft.keepsReports_putLeaf _ _))
    | @array element =>
      unfold layOutArray
      dsimp only [Draft.exchange]
      refine (ih alone element { draft with container := .emptyBody } h).bind fun inner h => ?_
      have outer : Draft.Accounted alone { inner with container := draft.container } := h
      exact Keeps.lift (outer.of_keepsReports (Draft.keepsReports_putArray _ _))
    | variant => exact keeps_layOutVariant_accounted ih _ h
    | record => exact keeps_layOutFields_accounted ih _ h
    | named => exact keeps_layOutNamed_accounted finds accounted _ h

/-! ## Structs -/

/-- A field that is measured may bring warnings, but no variants. -/
theorem keeps_layOutField_accounted (finds : Finds setting.schema setting.width struct)
    (accounted : FindsAccounted setting struct) {sofar : Draft × List TrailingField} {field : Field}
    (plain : alone → ∀ element span,
      setting.schema.type? field.type ≠ some ⟨.array element .dynamic, span⟩)
    (h : sofar.1.Accounted alone) :
    Ends setting.schema setting.width (fun next => next.1.Accounted alone)
      (layOutField setting struct sofar field) := by
  obtain ⟨run, step⟩ := setting.schema.exists_fieldStep field
  rw [step.layOutField_eq rfl]
  cases step with
  | string => exact Keeps.pure h
  | @dynamic element span node =>
    refine (keeps_elementFootprint finds element).anyway.bind fun ⟨footprint, warnings⟩ _ => ?_
    dsimp only
    split
    · exact Keeps.throw trivial
    · refine Keeps.pure ⟨fun v member imperfect => ?_, fun here => absurd node (plain here _ _)⟩
      obtain ⟨warning, listed, same⟩ := h.warned v member imperfect
      exact ⟨warning, Array.mem_append_left _ listed, same⟩
  | fixed =>
    exact (keeps_layOutType_accounted finds accounted _ alone field.type sofar.1 h).bind
      fun after h => Keeps.pure h

theorem keeps_layOutStruct_accounted (finds : Finds setting.schema setting.width struct)
    (accounted : FindsAccounted setting struct) {name : String} {fields : List Field}
    (declared : setting.schema.structFields? name = some fields) (span : Span) :
    Ends setting.schema setting.width (Template.Accounted setting.schema)
      (layOutStruct setting struct name fields span) := by
  unfold layOutStruct
  refine (Keeps.foldlM (fun rest (sofar : Draft × List TrailingField) =>
    (∀ field ∈ rest, field ∈ fields) ∧
      sofar.1.Accounted (setting.schema.NothingMeasured name)) (fun field rest sofar h => ?_)
      ⟨fun _ member => member, .empty _⟩).bind ?_
  · obtain ⟨listed, h⟩ := h
    refine (keeps_layOutField_accounted finds accounted (fun none => ?_) h).mono fun _ h => ⟨?_, h⟩
    · exact none fields declared field (listed field List.mem_cons_self)
    · exact fun other later => listed other (List.mem_cons_of_mem _ later)
  · rintro ⟨draft, trailing⟩ ⟨_, h⟩
    dsimp only
    split
    · exact Keeps.throw trivial
    · exact Keeps.pure h

theorem keeps_freshTemplate_accounted (setting : Setting) (depth : Nat) :
    FindsAccounted setting (freshTemplate setting depth) :=
  @ends_freshTemplate setting (fun _ => Template.Accounted setting.schema)
    (fun depth ih _ _ span declared =>
      keeps_layOutStruct_accounted (finds_freshTemplate setting depth) ih declared span) depth

/-! ## Layouts -/

/-- A variant that was resolved to be perfect is as large as its largest arm. -/
theorem VariantLayout.Resolved.total_eq {limit : Nat} {v : VariantLayout} (h : v.Resolved w limit)
    (perfect : v.perfect = true) : v.layout.total = v.required := by
  obtain ⟨arms, r, collected, resolved, _, layout, required, same⟩ := h
  rw [layout, required]
  refine Resolution.total_eq_required collected resolved fun n padded => ?_
  rw [perfect, Resolution.isPerfect, eq_comm, List.isEmpty_iff] at same
  exact absurd padded (same ▸ List.not_mem_nil)

/-- A layout is perfect if there are no warnings. Then every variant is perfect, and its storage is
as large as its largest arm. Where no field of the root struct is a dynamic array it is perfect just
if its variants are. Every variant that is not perfect has a warning of its place. -/
theorem isPerfect_accounted {schema : Schema} {root : String} {options : Options} {layout : Layout}
    (laid : schema.layOut root options = .ok layout) :
    (layout.isPerfect = true →
      ∀ v ∈ layout.variants, v.perfect = true ∧ v.layout.total = v.required) ∧
    (schema.NothingMeasured root → (∀ v ∈ layout.variants, v.perfect = true) →
      layout.isPerfect = true) ∧
    ∀ v ∈ layout.variants, v.perfect = false →
      ∃ warning ∈ layout.warnings, warning.span = v.span := by
  obtain ⟨t, span, made, done, _, rfl⟩ := (layOut_spec schema root options).of_ok laid
  obtain ⟨shapes, _, makes⟩ := exists_makes_of_rootTemplate made
  have accounted :=
    Ends.of_rootTemplate (fun depth => keeps_freshTemplate_accounted _ depth _) made
  rw [Layout.isPerfect, Array.isEmpty_iff, congrArg Layout.variants (Template.of_toLayout done),
    congrArg Layout.warnings (Template.of_toLayout done)]
  refine ⟨fun silent v listed => ?_, fun none perfect => ?_, accounted.warned⟩
  · have perfect : v.perfect = true := by
      by_contra imperfect
      obtain ⟨warning, listed, _⟩ := accounted.warned v listed (Bool.eq_false_iff.mpr imperfect)
      exact absurd (silent ▸ listed) (Array.not_mem_empty warning)
    exact ⟨perfect, (makes.resolved v listed).total_eq perfect⟩
  · refine Array.eq_empty_iff_forall_not_mem.mpr fun warning listed => ?_
    obtain ⟨v, listed, imperfect, _⟩ := accounted.recorded none warning listed
    exact absurd (perfect v listed) (Bool.eq_false_iff.mp imperfect)

/-- Below the 4 bytes of the largest arm the variant is not perfect. -/
theorem isPerfect_accounted_samples :
    (∃ layout v, samples.layOut "Sample" .default = .ok layout ∧ layout.isPerfect = true ∧
      layout.variants = #[v] ∧ v.perfect = true ∧ v.layout.total = v.required) ∧
    ∃ layout v, samples.layOut "Sample" { maxSearchBytes := 3 } = .ok layout ∧
      layout.variants = #[v] ∧ v.perfect = false ∧
      ∃ warning ∈ layout.warnings, warning.span = v.span := by
  constructor
  · obtain ⟨layout, v, laid, variants, perfect⟩ : ∃ layout v,
        samples.layOut "Sample" .default = .ok layout ∧ layout.variants = #[v] ∧
          v.perfect = true := ⟨_, _, by cbv, rfl, rfl⟩
    obtain ⟨total, converse, _⟩ := isPerfect_accounted laid
    have all : ∀ v ∈ layout.variants, v.perfect = true := by
      rw [variants]
      intro v listed
      rwa [Array.mem_singleton.mp listed]
    have silent := converse (fun fields known => ?_) all
    · have listed : v ∈ layout.variants := by rw [variants]; exact Array.mem_singleton_self v
      exact ⟨layout, v, laid, silent, variants, total silent v listed⟩
    · obtain rfl : [⟨"id", ⟨0⟩, .dummy⟩, ⟨"items", ⟨5⟩, .dummy⟩, ⟨"note", ⟨6⟩, .dummy⟩] = fields :=
        Option.some.inj known
      simp [samples, Schema.type?, Arena.get?]
  · obtain ⟨layout, v, laid, variants, imperfect⟩ : ∃ layout v,
        samples.layOut "Sample" { maxSearchBytes := 3 } = .ok layout ∧ layout.variants = #[v] ∧
          v.perfect = false := ⟨_, _, by cbv, rfl, rfl⟩
    have listed : v ∈ layout.variants := by rw [variants]; exact Array.mem_singleton_self v
    exact ⟨layout, v, laid, variants, imperfect,
      (isPerfect_accounted laid).2.2 v listed imperfect⟩

end PackedLayout
